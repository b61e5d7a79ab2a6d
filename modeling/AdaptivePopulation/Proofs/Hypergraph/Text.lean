import AdaptivePopulation.Hypergraph.Snapshot
import AdaptivePopulation.Proofs.Json.Decoding

/-!
# Snapshots as text

The text under which a snapshot is kept is read as the snapshot itself, whatever the names of its
nodes, as long as the attributes do not nest too deeply: the reader enters a limited number of
containers, and two of them stand around all attributes.
-/

namespace AdaptivePopulation

open Json

theorem ofList_toList {τ : Type} (t : Std.ExtTreeMap NodeId τ compare) :
    Std.ExtTreeMap.ofList t.toList compare = t := by
  refine Std.ExtTreeMap.ext_getElem? fun id => ?_
  cases h : t[id]? with
  | none =>
    refine Std.ExtTreeMap.getElem?_ofList_of_contains_eq_false ?_
    rw [Std.ExtTreeMap.map_fst_toList_eq_keys, Std.ExtTreeMap.contains_keys,
      ← Std.ExtTreeMap.isSome_getElem?_eq_contains, h]
    rfl
  | some value =>
    exact Std.ExtTreeMap.getElem?_ofList_of_mem Std.ReflCmp.compare_self t.distinct_keys_toList
      (Std.ExtTreeMap.mem_toList_iff_getElem?_eq_some.2 h)

theorem EdgeRecord.legible_toJson {e : EdgeRecord Float} (hw : e.weight.isFinite) :
    e.toJson.Legible := by
  refine .obj fun f hf => ?_
  obtain rfl | rfl : f = _ ∨ f = _ := by simpa using hf
  · exact .arr fun j hj => by obtain ⟨id, -, rfl⟩ := List.mem_map.1 hj; exact .str id
  · exact .num hw

/-- An edge record takes two containers, one for itself and one for its members. -/
theorem EdgeRecord.decode_toJson {e : EdgeRecord Float} (hw : e.weight.isFinite) (depth : Nat) :
    EdgeRecord.decode (depth + 2) e.toJson.document = some e := by
  have record := read_documents [("nodes", .arr (e.nodes.map .str)), ("weight", .ofFloat e.weight)]
    (by simp) (depth + 1)
  have nodes : Decoder.list Decoder.string (depth + 1) (document (.arr (e.nodes.map .str))) =
      some e.nodes :=
    list_documents fun id _ => stringOf?_piecesOf id
  have weight : Decoder.float (depth + 1) (document (.ofFloat e.weight)) = some e.weight :=
    floatOf?_numeral hw
  simp only [List.map_cons, List.map_nil] at record
  rw [EdgeRecord.decode, toJson, record]
  simp [Record.required, List.lookup, nodes, weight]

namespace HypergraphSnapshot

variable {s : HypergraphSnapshot Float}

theorem legible_toJson (hw : ∀ e ∈ s.edges, e.weight.isFinite)
    (ha : ∀ (id : NodeId) (j : Json), s.nodes[id]? = some j → j.WellFormed) : s.toJson.Legible := by
  refine .obj fun f hf => ?_
  obtain rfl | rfl : f = _ ∨ f = _ := by simpa using hf
  · refine .obj fun f hf => ?_
    exact (ha f.1 f.2 (Std.ExtTreeMap.mem_toList_iff_getElem?_eq_some.1 hf)).legible
  · refine .arr fun j hj => ?_
    obtain ⟨e, he, rfl⟩ := List.mem_map.1 hj
    exact e.legible_toJson (hw e he)

/-- What is read from the text of a snapshot. -/
theorem ofText_toText_eq (hw : ∀ e ∈ s.edges, e.weight.isFinite)
    (ha : ∀ (id : NodeId) (j : Json), s.nodes[id]? = some j → j.WellFormed) :
    ofText s.toText =
      if fieldsNesting s.nodes.toList ≤ 125 then .ok s else .error .serialization := by
  have read : Document.read? s.toText.toList = some s.toJson.document :=
    read?_toText (legible_toJson hw ha)
  have record := read_documents [("nodes", .obj s.nodes.toList),
    ("edges", .arr (s.edges.map EdgeRecord.toJson))] (by simp) 126
  have values : ∀ f ∈ s.nodes.toList, f.2.WellFormed := fun f hf =>
    ha f.1 f.2 (Std.ExtTreeMap.mem_toList_iff_getElem?_eq_some.1 hf)
  have nodes : Decoder.entries Json.decode 126 (document (.obj s.nodes.toList)) =
      if fieldsNesting s.nodes.toList ≤ 125 then some s.nodes.toList else none := by
    rw [document, entries_decode, decodeFields_documents values]
  have edges : Decoder.list EdgeRecord.decode 126
      (document (.arr (s.edges.map EdgeRecord.toJson))) = some s.edges :=
    list_documents fun e he => e.decode_toJson (hw e he) 123
  simp only [List.map_cons, List.map_nil] at record
  have decoded : Json.read? decode s.toText =
      if fieldsNesting s.nodes.toList ≤ 125 then some s else none := by
    rw [Json.read?, read, Option.bind_some, nestingLimit, decode, toJson, record]
    split_ifs at nodes with h <;>
      simp [Record.required, List.lookup, nodes, edges, ofList_toList, h]
  rw [ofText, decoded]
  split_ifs <;> rfl

/-- A snapshot is read from its own text, whatever its nodes are called, as long as no attribute
nests more than 125 containers; otherwise its text is refused.  Attributes may be all values that
there are: whole numbers of sixty-four bits, finite doubles, and objects with their fields in
order. -/
theorem text_restores (s : HypergraphSnapshot Float) (hw : ∀ e ∈ s.edges, e.weight.isFinite)
    (ha : ∀ (id : NodeId) (j : Json), s.nodes[id]? = some j → j.WellFormed) :
    ((∀ (id : NodeId) (j : Json), s.nodes[id]? = some j → j.nesting ≤ 125) →
        ofText s.toText = .ok s) ∧
      ((∃ (id : NodeId) (j : Json), s.nodes[id]? = some j ∧ 125 < j.nesting) →
        ofText s.toText = .error .serialization) := by
  have shallow : fieldsNesting s.nodes.toList ≤ 125 ↔
      ∀ (id : NodeId) (j : Json), s.nodes[id]? = some j → j.nesting ≤ 125 := by
    simp only [fieldsNesting_le_iff, Prod.forall, Std.ExtTreeMap.mem_toList_iff_getElem?_eq_some]
  rw [ofText_toText_eq hw ha]
  refine ⟨fun h => if_pos (shallow.2 h), fun ⟨id, j, hj, deep⟩ => if_neg fun h => ?_⟩
  exact absurd (shallow.1 h id j hj) (Nat.not_le.2 deep)

/-- Two nodes with names that need escapes or are empty, attributes of all kinds, and an edge. -/
def oddlyNamed : HypergraphSnapshot Float where
  nodes := (∅ : Std.ExtTreeMap NodeId Json compare).insert "" .null |>.insert "a\"\\\n\x01é"
    (.obj [("", .arr [.num (.int (-7)), .ofFloat 0.1, .obj []]), ("é", .str "\"\t"),
      ("ü", .bool true)])
  edges := [⟨["", "a\"\\\n\x01é"], 0.5⟩]

/-- One node, with brackets inside brackets as its attributes. -/
def bracketed (depth : Nat) : HypergraphSnapshot Float where
  nodes := (∅ : Std.ExtTreeMap NodeId Json compare).insert "a" (brackets depth)
  edges := []

theorem text_restores_oddlyNamed :
    ofText oddlyNamed.toText = .ok oddlyNamed ∧
      ofText (bracketed 126).toText = .error .serialization := by
  constructor
  · have attributes (id : NodeId) (j : Json) (h : oddlyNamed.nodes[id]? = some j) :
        j.WellFormed ∧ j.nesting ≤ 125 := by
      simp only [oddlyNamed, Std.ExtTreeMap.getElem?_insert] at h
      split_ifs at h
      · cases h
        refine ⟨.obj (by decide +kernel) ?_, by decide⟩
        simp only [List.forall_mem_cons, List.not_mem_nil, false_imp_iff, implies_true, and_true]
        refine ⟨.arr ?_, .str _, .bool _⟩
        simp only [List.forall_mem_cons, List.not_mem_nil, false_imp_iff, implies_true, and_true]
        exact ⟨.num (by decide), .num (by decide +kernel), .obj .nil nofun⟩
      · cases h
        exact ⟨.null, by decide⟩
      · simp at h
    have weights : ∀ e ∈ oddlyNamed.edges, e.weight.isFinite :=
      List.forall_mem_singleton.2 (by decide +kernel)
    exact (text_restores oddlyNamed weights fun id j h => (attributes id j h).1).1
      fun id j h => (attributes id j h).2
  · have attributes (id : NodeId) (j : Json) (h : (bracketed 126).nodes[id]? = some j) :
        j.WellFormed := by
      simp only [bracketed, Std.ExtTreeMap.getElem?_insert] at h
      split_ifs at h
      · cases h
        exact wellFormed_brackets 126
      · simp at h
    exact (text_restores (bracketed 126) nofun attributes).2
      ⟨"a", _, Std.ExtTreeMap.getElem?_insert_self, by rw [nesting_brackets]; decide⟩

end HypergraphSnapshot

end AdaptivePopulation
