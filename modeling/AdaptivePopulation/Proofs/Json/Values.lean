import AdaptivePopulation.Proofs.Json.Doubles
import AdaptivePopulation.Proofs.Json.Spelling

/-!
# Values as documents

A written value is the text of one document: its numbers are numerals that denote them, its strings
are pieces, and its tokens stand between the characters that end them.
-/

namespace AdaptivePopulation.Json

/-! ## Values that can be written -/

/-- Whole numbers fit sixty-four bits, and doubles are finite. -/
def Number.WellFormed : Number → Prop
  | .int n => -2 ^ 63 ≤ n ∧ n < 2 ^ 64
  | .float x => x.isFinite

instance : DecidablePred Number.WellFormed
  | .int n => inferInstanceAs (Decidable (-2 ^ 63 ≤ n ∧ n < 2 ^ 64))
  | .float x => inferInstanceAs (Decidable (x.isFinite = true))

/-- The names of the fields are in order and not repeated. -/
def Sorted {τ : Type} (fields : List (String × τ)) : Prop := fields.Pairwise fun f g => f.1 < g.1

instance {τ : Type} (fields : List (String × τ)) : Decidable (Sorted fields) :=
  inferInstanceAs (Decidable (fields.Pairwise fun f g => f.1 < g.1))

/-- All numbers in a value have texts. -/
inductive Legible : Json → Prop where
  | null : Legible .null
  | bool (b : Bool) : Legible (.bool b)
  | num {n : Number} (hn : n.WellFormed) : Legible (.num n)
  | str (s : String) : Legible (.str s)
  | arr {items : List Json} (hi : ∀ j ∈ items, Legible j) : Legible (.arr items)
  | obj {fields : List (String × Json)} (hf : ∀ f ∈ fields, Legible f.2) : Legible (.obj fields)

/-- All numbers in a value have texts, and all its fields are in order. -/
inductive WellFormed : Json → Prop where
  | null : WellFormed .null
  | bool (b : Bool) : WellFormed (.bool b)
  | num {n : Number} (hn : n.WellFormed) : WellFormed (.num n)
  | str (s : String) : WellFormed (.str s)
  | arr {items : List Json} (hi : ∀ j ∈ items, WellFormed j) : WellFormed (.arr items)
  | obj {fields : List (String × Json)} (hs : Sorted fields) (hf : ∀ f ∈ fields, WellFormed f.2) :
    WellFormed (.obj fields)

theorem WellFormed.legible {j : Json} (hj : j.WellFormed) : j.Legible := by
  induction hj with
  | null => exact .null
  | bool b => exact .bool b
  | num hn => exact .num hn
  | str s => exact .str s
  | arr _ ih => exact .arr ih
  | obj _ _ ih => exact .obj ih

/-! ## Numbers -/

open Decimal Scanner

/-- The numeral that a number is written as. -/
def Number.numeral : Number → Numeral
  | .int n => .ofInt n
  | .float x => (Numeral.read? (numberFormat.write x)).getD ⟨false, [], none, none⟩

theorem isStrict_ofInt (n : Int) : isStrict (Numeral.ofInt n) := by
  obtain h | h := Nat.lt_or_ge n.natAbs 10
  · simp [isStrict, Numeral.ofInt, Nat.toDigits_of_lt_base h]
  · simp [isStrict, Numeral.ofInt, head?_toDigits (show n.natAbs ≠ 0 by omega)]

theorem intOf?_ofInt (n : Int) : Decoder.intOf? (Numeral.ofInt n) = some n := by
  have value : (Numeral.ofInt n).coefficient = n.natAbs := by
    simp [Numeral.coefficient, Numeral.ofInt]
  have whole : (Numeral.ofInt n).IsWhole := ⟨rfl, rfl⟩
  rw [Decoder.intOf?, if_neg (by simpa using whole), value]
  by_cases h : n < 0
  · have nonzero : n.natAbs ≠ 0 := by omega
    simp only [Numeral.ofInt, h, decide_true, if_true, nonzero, if_false, Option.some.injEq]
    omega
  · simp only [Numeral.ofInt, h, decide_false, Bool.false_eq_true, if_false, Option.some.injEq]
    omega

theorem numeral_float {x : Float} (hx : x.isFinite) :
    Spells (numberFormat.write x) (Number.float x).numeral ∧ isStrict (Number.float x).numeral ∧
      ¬ (Number.float x).numeral.IsWhole ∧ (Number.float x).numeral.toFloat = x := by
  obtain ⟨n, hn⟩ := exists_numeral hx
  have : (Number.float x).numeral = n := by rw [Number.numeral, hn.1.reads, Option.getD_some]
  rwa [this]

/-- A number that has a text is written as its numeral. -/
theorem Number.spells {n : Number} (hn : n.WellFormed) :
    Spells n.write n.numeral ∧ isStrict n.numeral := by
  cases n with
  | int n => exact ⟨spells_writeInt n, isStrict_ofInt n⟩
  | float x => exact ⟨(numeral_float hn).1, (numeral_float hn).2.1⟩

theorem floatOf?_numeral {x : Float} (hx : x.isFinite) :
    Decoder.floatOf? (Number.float x).numeral = some x := by
  obtain ⟨-, -, -, value⟩ := numeral_float hx
  simp [Decoder.floatOf?, value, isInf_of_isFinite hx]

/-- The numeral of a number denotes this number, of the same kind. -/
theorem ofNumeral?_numeral {n : Number} (hn : n.WellFormed) :
    Number.ofNumeral? n.numeral = some n := by
  cases n with
  | int n =>
    have inRange : -2 ^ 63 ≤ n ∧ n < 2 ^ 64 := hn
    rw [Number.ofNumeral?, Number.numeral, intOf?_ofInt]
    simp only [Option.filter_some]
    rw [if_pos]
    exact decide_eq_true inRange
  | float x =>
    obtain ⟨-, -, whole, -⟩ := numeral_float hn
    have notInt : Decoder.intOf? (Number.float x).numeral = none := by
      simp [Decoder.intOf?, whole]
    rw [Number.ofNumeral?, notInt, floatOf?_numeral hn]
    rfl

/-! ## Doubles without texts -/

mutual

/-- The value with null in the place of each double that has no text. -/
def settled : Json → Json
  | .num (.float x) => if x.isFinite then .ofFloat x else .null
  | .arr items => .arr (settledItems items)
  | .obj fields => .obj (settledFields fields)
  | j => j

/-- The settled items of an array. -/
def settledItems : List Json → List Json
  | [] => []
  | j :: rest => j.settled :: settledItems rest

/-- The fields of an object with settled values. -/
def settledFields : List (String × Json) → List (String × Json)
  | [] => []
  | (name, j) :: rest => (name, j.settled) :: settledFields rest

end

mutual

/-- A value and the settled value are written alike. -/
theorem write_settled (j : Json) : j.settled.write = j.write := by
  match j with
  | .null | .bool _ | .str _ | .num (.int _) => rfl
  | .num (.float x) =>
    rw [settled]
    split_ifs with hx
    · rfl
    · exact (write_of_not_isFinite hx).symm
  | .arr items => rw [settled, write, write, writeItems_settled]
  | .obj fields => rw [settled, write, write, writeFields_settled]

theorem writeItems_settled (items : List Json) :
    writeItems (settledItems items) = writeItems items := by
  match items with
  | [] => rfl
  | [j] => simp [settledItems, writeItems, write_settled j]
  | j :: k :: rest =>
    have others := writeItems_settled (k :: rest)
    simp only [settledItems, writeItems] at others ⊢
    rw [write_settled j, others]

theorem writeFields_settled (fields : List (String × Json)) :
    writeFields (settledFields fields) = writeFields fields := by
  match fields with
  | [] => rfl
  | [(name, j)] => simp [settledFields, writeFields, write_settled j]
  | (name, j) :: (name', k) :: rest =>
    have others := writeFields_settled ((name', k) :: rest)
    simp only [settledFields, writeFields] at others ⊢
    rw [write_settled j, others]

end

theorem toText_settled (j : Json) : j.settled.toText = j.toText := by
  rw [toText, toText, write_settled]

theorem settledItems_eq_map (items : List Json) : settledItems items = items.map settled := by
  induction items with
  | nil => rfl
  | cons j rest ih => rw [settledItems, ih, List.map_cons]

theorem settledFields_eq_map (fields : List (String × Json)) :
    settledFields fields = fields.map fun f => (f.1, f.2.settled) := by
  induction fields with
  | nil => rfl
  | cons f rest ih => rw [settledFields, ih, List.map_cons]

theorem Legible.settled_eq {j : Json} (hj : j.Legible) : j.settled = j := by
  induction hj with
  | null | bool | str => rfl
  | @num n hn =>
    cases n with
    | int => rfl
    | float x => exact if_pos hn
  | arr _ ih => rw [settled, settledItems_eq_map, List.map_congr_left ih, List.map_id']
  | @obj fields _ ih =>
    have same : ∀ f ∈ fields, (f.1, f.2.settled) = id f := fun f hf => Prod.ext rfl (ih f hf)
    rw [settled, settledFields_eq_map, List.map_congr_left same, List.map_id]

/-! ## Documents -/

mutual

/-- The document that a value is written as. -/
def document : Json → Document
  | .null => .null
  | .bool b => .bool b
  | .num n => .num n.numeral
  | .str s => .str (piecesOf s)
  | .arr items => .arr (itemDocuments items)
  | .obj fields => .obj (fieldDocuments fields)

/-- The documents of the items of an array. -/
def itemDocuments : List Json → List Document
  | [] => []
  | j :: rest => document j :: itemDocuments rest

/-- The names and documents of the fields of an object. -/
def fieldDocuments : List (String × Json) → List (List Piece × Document)
  | [] => []
  | (name, j) :: rest => (piecesOf name, document j) :: fieldDocuments rest

end

theorem itemDocuments_eq_map (items : List Json) : itemDocuments items = items.map document := by
  induction items with
  | nil => rfl
  | cons j rest ih => rw [itemDocuments, ih, List.map_cons]

/-! ## Texts -/

mutual

/-- What a value is written as is a text of its document. -/
theorem tokensText_write {j : Json} (hj : j.Legible) {tokens : List Token} {rest : List Char}
    (hr : TokensText tokens rest) (apart : Delimited rest) :
    TokensText (j.document.tokens ++ tokens) (j.write ++ rest) := by
  match j with
  | .null => exact .cons .null (fun _ => apart) hr
  | .bool b => exact .cons (.bool b) (fun _ => apart) hr
  | .num n =>
    cases hj with | num hn
    exact .cons (.num (Number.spells hn).1 (Number.spells hn).2) (fun _ => apart) hr
  | .str s => exact .cons (tokenText_writeString s) nofun hr
  | .arr items =>
    cases hj with | arr hi
    rw [write, document, Document.tokens]
    exact .mark rfl (tokensText_writeItems hi hr)
  | .obj fields =>
    cases hj with | obj hf
    rw [write, document, Document.tokens]
    exact .mark rfl (tokensText_writeFields hf hr)

theorem tokensText_writeItems {items : List Json} (hi : ∀ j ∈ items, j.Legible)
    {tokens : List Token} {rest : List Char} (hr : TokensText tokens rest) :
    TokensText (Document.itemTokens (itemDocuments items) ++ tokens)
      (writeItems items ++ rest) := by
  match items with
  | [] => exact .mark rfl hr
  | [j] =>
    have value := tokensText_write (hi j List.mem_cons_self)
      (.mark (t := .closeBracket) rfl hr) (delimited_cons (by decide) rest)
    simpa [writeItems, itemDocuments, Document.itemTokens] using value
  | j :: k :: more =>
    have others := tokensText_writeItems (fun j hj => hi j (List.mem_cons_of_mem _ hj)) hr
    have value := tokensText_write (hi j List.mem_cons_self)
      (.mark (t := .comma) rfl others) (delimited_cons (by decide) _)
    simpa [writeItems, itemDocuments, Document.itemTokens] using value

theorem tokensText_writeFields {fields : List (String × Json)} (hf : ∀ f ∈ fields, f.2.Legible)
    {tokens : List Token} {rest : List Char} (hr : TokensText tokens rest) :
    TokensText (Document.fieldTokens (fieldDocuments fields) ++ tokens)
      (writeFields fields ++ rest) := by
  match fields with
  | [] => exact .mark rfl hr
  | [(name, j)] =>
    have value := tokensText_write (hf (name, j) List.mem_cons_self)
      (.mark (t := .closeBrace) rfl hr) (delimited_cons (by decide) rest)
    simpa [writeFields, fieldDocuments, Document.fieldTokens] using
      TokensText.cons (tokenText_writeString name) nofun (.mark (t := .colon) rfl value)
  | (name, j) :: f :: more =>
    have others := tokensText_writeFields (fun f hf' => hf f (List.mem_cons_of_mem _ hf')) hr
    have value := tokensText_write (hf (name, j) List.mem_cons_self)
      (.mark (t := .comma) rfl others) (delimited_cons (by decide) _)
    simpa [writeFields, fieldDocuments, Document.fieldTokens] using
      TokensText.cons (tokenText_writeString name) nofun (.mark (t := .colon) rfl value)

end

theorem tokensText_toText {j : Json} (hj : j.Legible) :
    TokensText j.document.tokens j.toText.toList := by
  have written := tokensText_write hj .nil delimited_nil
  rwa [List.append_nil, List.append_nil, ← String.toList_ofList (l := j.write)] at written

/-- A written value is read as its document. -/
theorem read?_toText {j : Json} (hj : j.Legible) :
    Document.read? j.toText.toList = some j.document :=
  Document.read?_text (tokensText_toText hj)

end AdaptivePopulation.Json
