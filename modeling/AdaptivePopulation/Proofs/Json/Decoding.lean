import AdaptivePopulation.Proofs.Json.Values

/-!
# Values decoded

The document that a value is written as decodes to the value, unless the value nests deeper than the
decoder may go; then decoding fails.
-/

namespace AdaptivePopulation.Json

open Scanner

mutual

/-- How many containers stand around the innermost part of a value. -/
def nesting : Json → Nat
  | .arr items => itemsNesting items + 1
  | .obj fields => fieldsNesting fields + 1
  | _ => 0

/-- The deepest nesting among items. -/
def itemsNesting : List Json → Nat
  | [] => 0
  | j :: rest => max j.nesting (itemsNesting rest)

/-- The deepest nesting among the values of fields. -/
def fieldsNesting : List (String × Json) → Nat
  | [] => 0
  | (_, j) :: rest => max j.nesting (fieldsNesting rest)

end

/-- Null inside a number of arrays. -/
def brackets : Nat → Json
  | 0 => .null
  | depth + 1 => .arr [brackets depth]

theorem nesting_brackets (depth : Nat) : (brackets depth).nesting = depth := by
  induction depth with
  | zero => rfl
  | succ depth ih => rw [brackets, nesting, itemsNesting, itemsNesting, ih, Nat.max_zero]

theorem wellFormed_brackets (depth : Nat) : (brackets depth).WellFormed := by
  induction depth with
  | zero => exact .null
  | succ depth ih => exact .arr (List.forall_mem_singleton.2 ih)

/-! ## Strings -/

theorem charsOf?_unit {code : Nat} (h : code < 0x20) (rest : List Piece) :
    charsOf? (.unit code :: rest) = (charsOf? rest).map (Char.ofNat code :: ·) := by
  have high : isHighSurrogate code = false := by simp [isHighSurrogate]; omega
  have low : isLowSurrogate code = false := by simp [isLowSurrogate]; omega
  match rest with
  | [] | .char _ :: _ | .unit _ :: _ => simp [charsOf?, high, low]

theorem charsOf?_map_pieceOf (chars : List Char) : charsOf? (chars.map pieceOf) = some chars := by
  induction chars with
  | nil => rfl
  | cons c chars ih =>
    rw [List.map_cons, pieceOf]
    split_ifs with h
    · rw [charsOf?_unit h.1, ih, Option.map_some, Char.ofNat_toNat]
    · rw [charsOf?, ih, Option.map_some]

/-- The pieces that a string is written as are the pieces of this string. -/
theorem stringOf?_piecesOf (s : String) : stringOf? (piecesOf s) = some s := by
  rw [stringOf?, piecesOf, charsOf?_map_pieceOf, Option.map_some, String.ofList_toList]

/-! ## Fields -/

variable {τ : Type} {fields : List (String × τ)}

theorem Sorted.distinct (hs : Sorted fields) :
    fields.Pairwise fun f g => ¬ compare f.1 g.1 = .eq :=
  hs.imp fun h e => h.ne (Std.LawfulEqCmp.compare_eq_iff_eq.1 e)

theorem sorted_sortFields (fields : List (String × τ)) : Sorted (sortFields fields) :=
  (Std.TreeMap.ofList fields compare).ordered_keys_toList.imp compare_lt_iff_lt.1

/-- Where no name is repeated, no field is lost. -/
theorem mem_sortFields (hs : Sorted fields) (f : String × τ) :
    f ∈ sortFields fields ↔ f ∈ fields := by
  have kept {f : String × τ} (hf : f ∈ fields) :
      (Std.TreeMap.ofList fields compare)[f.1]? = some f.2 :=
    Std.TreeMap.getElem?_ofList_of_mem Std.ReflCmp.compare_self hs.distinct hf
  rw [sortFields, Std.TreeMap.mem_toList_iff_getElem?_eq_some]
  refine ⟨fun h => ?_, kept⟩
  have named : f.1 ∈ Std.TreeMap.ofList fields compare :=
    Std.TreeMap.isSome_getElem?_iff_mem.1 (h ▸ rfl)
  obtain ⟨g, hg, name⟩ : ∃ g ∈ fields, g.1 = f.1 := by simpa using named
  have value := (kept hg).symm.trans (name ▸ h)
  rwa [← Prod.ext name (Option.some.inj value)]

/-- Fields that are in order stay as they are. -/
theorem sortFields_eq_self (hs : Sorted fields) : sortFields fields = fields := by
  have : Std.Antisymm fun f g : String × τ => f.1 < g.1 := ⟨fun _ _ h h' => absurd h' h.asymm⟩
  have : Std.Irrefl fun f g : String × τ => f.1 < g.1 := ⟨fun f => lt_irrefl f.1⟩
  exact (sorted_sortFields fields).eq_of_mem_iff hs (mem_sortFields hs)

/-! ## Values -/

mutual

/-- A written value is decoded if and only if its nesting is within what the decoder may enter. -/
theorem decode_document {j : Json} (hj : j.WellFormed) (depth : Nat) :
    decode depth j.document = if j.nesting ≤ depth then some j else none := by
  match j with
  | .null => simp [document, decode, nesting]
  | .bool b => simp [document, decode, nesting]
  | .num n =>
    cases hj with | num hn
    simp [document, decode, nesting, ofNumeral?_numeral hn]
  | .str s => simp [document, decode, nesting, stringOf?_piecesOf]
  | .arr items =>
    cases hj with | arr hi
    cases depth with
    | zero => simp [document, decode, nesting]
    | succ depth =>
      simp only [document, decode, nesting, decodeItems_documents hi, Nat.add_le_add_iff_right]
      split_ifs <;> rfl
  | .obj fields =>
    cases hj with | obj hs hf
    cases depth with
    | zero => simp [document, decode, nesting]
    | succ depth =>
      simp only [document, decode, nesting, decodeFields_documents hf, Nat.add_le_add_iff_right]
      split_ifs
      · simp [sortFields_eq_self hs]
      · rfl

theorem decodeItems_documents {items : List Json} (hi : ∀ j ∈ items, j.WellFormed) (depth : Nat) :
    decodeItems depth (itemDocuments items) =
      if itemsNesting items ≤ depth then some items else none := by
  match items with
  | [] => simp [itemDocuments, decodeItems, itemsNesting]
  | j :: rest =>
    have first := decode_document (hi j List.mem_cons_self) depth
    have others := decodeItems_documents (fun k hk => hi k (List.mem_cons_of_mem j hk)) depth
    simp only [itemDocuments, decodeItems, first, others, itemsNesting, Nat.max_le]
    split_ifs <;> simp_all

theorem decodeFields_documents {fields : List (String × Json)}
    (hf : ∀ f ∈ fields, f.2.WellFormed) (depth : Nat) :
    decodeFields depth (fieldDocuments fields) =
      if fieldsNesting fields ≤ depth then some fields else none := by
  match fields with
  | [] => simp [fieldDocuments, decodeFields, fieldsNesting]
  | (name, j) :: rest =>
    have first := decode_document (hf (name, j) List.mem_cons_self) depth
    have others := decodeFields_documents (fun g hg => hf g (List.mem_cons_of_mem _ hg)) depth
    simp only [fieldDocuments, decodeFields, stringOf?_piecesOf, first, others, fieldsNesting,
      Nat.max_le]
    split_ifs <;> simp_all

end

theorem fieldsNesting_le_iff {fields : List (String × Json)} {depth : Nat} :
    fieldsNesting fields ≤ depth ↔ ∀ f ∈ fields, f.2.nesting ≤ depth := by
  induction fields with
  | nil => simp [fieldsNesting]
  | cons f rest ih => rw [fieldsNesting, Nat.max_le, ih, List.forall_mem_cons]

/-! ## Numbers -/

theorem nat_ofNat {n greatest : Nat} (h : n ≤ greatest) (depth : Nat) :
    Decoder.nat greatest depth (document (.ofNat n)) = some n := by
  have whole : (Decimal.Numeral.ofInt n).IsWhole := ⟨rfl, rfl⟩
  have value : (Decimal.Numeral.ofInt n).coefficient = n := by
    simp [Decimal.Numeral.coefficient, Decimal.Numeral.ofInt]
  have sign : (Decimal.Numeral.ofInt n).negative = false := by simp [Decimal.Numeral.ofInt]
  simp [Json.ofNat, document, Number.numeral, Decoder.nat, whole, value, sign, h]

theorem signedWord_ofInt {n : Int} (h : -2 ^ 63 ≤ n ∧ n < 2 ^ 63) (depth : Nat) :
    Decoder.signedWord depth (document (.num (.int n))) = some n := by
  rw [document, Number.numeral, Decoder.signedWord, intOf?_ofInt, Option.filter_some, if_pos]
  exact decide_eq_true h

theorem legible_settled_ofFloat (x : Float) : (ofFloat x).settled.Legible := by
  rw [ofFloat, settled]
  split_ifs with hx
  · exact .num hx
  · exact .null

/-- A double that is not finite is no number of a text. -/
theorem float_settled (x : Float) (depth : Nat) :
    Decoder.float depth (ofFloat x).settled.document = if x.isFinite then some x else none := by
  rw [ofFloat, settled]
  split_ifs with hx
  · exact floatOf?_numeral hx
  · rfl

/-! ## Lists, maps and records -/

/-- A list is decoded if and only if each of its items is. -/
theorem list_documents_ite {σ : Type} {d : Decoder σ} {toJson : σ → Json} {depth : Nat}
    {p : σ → Prop} [DecidablePred p] {l : List σ}
    (h : ∀ a ∈ l, d depth (toJson a).document = if p a then some a else none) :
    Decoder.list d (depth + 1) (document (.arr (l.map toJson))) =
      if ∀ a ∈ l, p a then some l else none := by
  rw [document, itemDocuments_eq_map, Decoder.list]
  induction l with
  | nil => rfl
  | cons a l ih =>
    rw [List.map_cons, List.map_cons, List.mapM_cons, h a List.mem_cons_self,
      ih fun b hb => h b (List.mem_cons_of_mem a hb)]
    by_cases first : p a
    · by_cases others : ∀ b ∈ l, p b
      · rw [if_pos first, if_pos others, if_pos (List.forall_mem_cons.2 ⟨first, others⟩)]
        rfl
      · rw [if_pos first, if_neg others, if_neg fun all => others (List.forall_mem_cons.1 all).2]
        rfl
    · rw [if_neg first, if_neg fun all => first (List.forall_mem_cons.1 all).1]
      rfl

theorem list_documents {σ : Type} {d : Decoder σ} {toJson : σ → Json} {depth : Nat} {l : List σ}
    (h : ∀ a ∈ l, d depth (toJson a).document = some a) :
    Decoder.list d (depth + 1) (document (.arr (l.map toJson))) = some l := by
  rw [list_documents_ite (p := fun _ => True) fun a ha => (h a ha).trans (if_pos trivial).symm]
  exact if_pos fun _ _ => trivial

/-- The values of a map are decoded as those of an object, and repeated names are kept. -/
theorem entries_decode (depth : Nat) (fields : List (List Piece × Document)) :
    Decoder.entries decode (depth + 1) (.obj fields) = decodeFields depth fields := by
  rw [Decoder.entries]
  induction fields with
  | nil => rfl
  | cons f rest ih => rw [List.mapM_cons, ih]; simp [decodeFields, Option.bind_assoc]

/-- A field of an object with its name read. -/
def Labels (field : List Piece × Document) (entry : String × Document) : Prop :=
  stringOf? field.1 = some entry.1 ∧ field.2 = entry.2

theorem labels_documents (fields : List (String × Json)) :
    List.Forall₂ Labels (fieldDocuments fields) (fields.map fun f => (f.1, f.2.document)) := by
  induction fields with
  | nil => exact .nil
  | cons f rest ih => exact .cons ⟨stringOf?_piecesOf f.1, rfl⟩ ih

theorem lookup_of_not_mem {entries : List (String × τ)} {name : String}
    (h : name ∉ entries.map Prod.fst) : entries.lookup name = none := by
  rw [List.lookup_eq_none_iff]
  exact fun e he => by simpa using fun same : name = e.1 => h (same ▸ List.mem_map_of_mem he)

/-- The known fields of an object, if no known name is repeated. -/
theorem known?_eq_some {names : List String} {docs : List (List Piece × Document)}
    {entries : List (String × Document)} (labels : List.Forall₂ Labels docs entries)
    (distinct : ((entries.filter (·.1 ∈ names)).map Prod.fst).Nodup) :
    Record.known? names docs = some (entries.filter (·.1 ∈ names)) := by
  induction labels with
  | nil => rfl
  | @cons doc entry docs entries label _ ih =>
    obtain ⟨name, value⟩ := label
    by_cases known : entry.1 ∈ names
    · rw [List.filter_cons_of_pos (by simpa using known)] at distinct ⊢
      obtain ⟨new, distinct⟩ := List.nodup_cons.1 distinct
      simp [Record.known?, name, value, known, ih distinct, lookup_of_not_mem new]
    · rw [List.filter_cons_of_neg (by simpa using known)] at distinct ⊢
      simp [Record.known?, name, known, ih distinct]

/-- A record that was written with all its fields is read with all its fields. -/
theorem read_documents (fields : List (String × Json)) (distinct : (fields.map Prod.fst).Nodup)
    (depth : Nat) :
    Record.read (fields.map Prod.fst) (depth + 1) (document (.obj fields)) =
      some ⟨fields.map fun f => (f.1, f.2.document), false, depth⟩ := by
  have all : (fields.map fun f => (f.1, f.2.document)).filter (·.1 ∈ fields.map Prod.fst) =
      fields.map fun f => (f.1, f.2.document) := by
    rw [List.filter_eq_self, List.forall_mem_map]
    exact fun f hf => decide_eq_true (List.mem_map_of_mem hf)
  have names : (fields.map fun f => (f.1, f.2.document)).map Prod.fst = fields.map Prod.fst := by
    rw [List.map_map]
    rfl
  rw [document, Record.read,
    known?_eq_some (labels_documents fields) (by rw [all, names]; exact distinct), all]
  rfl

end AdaptivePopulation.Json
