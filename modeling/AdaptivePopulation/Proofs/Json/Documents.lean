import AdaptivePopulation.Json.Document

/-!
# Documents and their tokens

The tokens of a document, and the fact that reading them, in any surrounding container, yields the
document.
-/

namespace AdaptivePopulation.Json

mutual

/-- The tokens of a document. -/
def Document.tokens : Document → List Token
  | .null => [.null]
  | .bool b => [.bool b]
  | .num n => [.num n]
  | .str pieces => [.str pieces]
  | .arr items => .openBracket :: itemTokens items
  | .obj fields => .openBrace :: fieldTokens fields

/-- The tokens of the items of an array and its closing bracket. -/
def Document.itemTokens : List Document → List Token
  | [] => [.closeBracket]
  | [d] => d.tokens ++ [.closeBracket]
  | d :: e :: rest => d.tokens ++ .comma :: itemTokens (e :: rest)

/-- The tokens of the fields of an object and its closing brace. -/
def Document.fieldTokens : List (List Piece × Document) → List Token
  | [] => [.closeBrace]
  | [(name, d)] => .str name :: .colon :: d.tokens ++ [.closeBrace]
  | (name, d) :: f :: rest => .str name :: .colon :: d.tokens ++ .comma :: fieldTokens (f :: rest)

end

namespace Reader

/-- The reader after some tokens. -/
def run (r : Reader) (tokens : List Token) : Option Reader := tokens.foldlM step r

theorem run_cons {r : Reader} (next : Reader) {t : Token} (h : r.step t = some next)
    (tokens : List Token) : r.run (t :: tokens) = next.run tokens := by
  simp [run, h]

/-- Where an array could end as well, the first token of a document begins its first item. -/
theorem run_itemOrEnd (d : Document) (stack : List Frame) (more : List Token) :
    run (itemOrEnd stack) (d.tokens ++ more) =
      run (value (.items [] :: stack)) (d.tokens ++ more) := by
  cases d <;> simp only [Document.tokens, List.cons_append, run, List.foldlM_cons] <;> rfl

theorem run_itemsOrEnd {items : List Document} (hne : items ≠ []) (stack : List Frame)
    (more : List Token) :
    run (itemOrEnd stack) (Document.itemTokens items ++ more) =
      run (value (.items [] :: stack)) (Document.itemTokens items ++ more) := by
  match items with
  | [d] => simpa [Document.itemTokens] using run_itemOrEnd d stack (.closeBracket :: more)
  | d :: e :: rest =>
    simpa [Document.itemTokens] using
      run_itemOrEnd d stack (.comma :: Document.itemTokens (e :: rest) ++ more)

/-- Where an object could end as well, the first name begins its first field. -/
theorem run_fieldsOrEnd {fields : List (List Piece × Document)} (hne : fields ≠ [])
    (stack : List Frame) (more : List Token) :
    run (nameOrEnd stack) (Document.fieldTokens fields ++ more) =
      run (name [] stack) (Document.fieldTokens fields ++ more) := by
  match fields with
  | [(n, d)] =>
    rw [Document.fieldTokens]
    exact (run_cons (colon [] n stack) rfl _).trans (run_cons _ rfl _).symm
  | (n, d) :: f :: rest =>
    rw [Document.fieldTokens]
    exact (run_cons (colon [] n stack) rfl _).trans (run_cons _ rfl _).symm

mutual

/-- Where a value may come, reading the tokens of a document completes the document. -/
theorem run_tokens (d : Document) (stack : List Frame) (more : List Token) :
    run (value stack) (d.tokens ++ more) = run (complete d stack) more := by
  match d with
  | .null | .bool _ | .num _ | .str _ => rw [Document.tokens]; exact run_cons _ rfl more
  | .arr [] =>
    rw [Document.tokens, Document.itemTokens]
    exact (run_cons (itemOrEnd stack) rfl _).trans (run_cons _ rfl more)
  | .arr (d :: rest) =>
    have hne : d :: rest ≠ [] := List.cons_ne_nil d rest
    rw [Document.tokens, List.cons_append, run_cons (itemOrEnd stack) rfl,
      run_itemsOrEnd hne, run_items (d :: rest) hne]
    rfl
  | .obj [] =>
    rw [Document.tokens, Document.fieldTokens]
    exact (run_cons (nameOrEnd stack) rfl _).trans (run_cons _ rfl more)
  | .obj ((n, d) :: rest) =>
    have hne : (n, d) :: rest ≠ [] := List.cons_ne_nil (n, d) rest
    rw [Document.tokens, List.cons_append, run_cons (nameOrEnd stack) rfl,
      run_fieldsOrEnd hne, run_fields ((n, d) :: rest) hne]
    rfl

/-- After some items of an array, reading the tokens of the others completes the array. -/
theorem run_items (items : List Document) (hne : items ≠ []) (before : List Document)
    (stack : List Frame) (more : List Token) :
    run (value (.items before :: stack)) (Document.itemTokens items ++ more) =
      run (complete (.arr (before.reverse ++ items)) stack) more := by
  match items with
  | [d] =>
    rw [Document.itemTokens, List.append_assoc, run_tokens d]
    exact (run_cons _ rfl more).trans (by simp)
  | d :: e :: rest =>
    rw [Document.itemTokens, List.append_assoc, run_tokens d, List.cons_append,
      run_cons (value (.items (d :: before) :: stack)) rfl,
      run_items (e :: rest) (List.cons_ne_nil e rest)]
    simp

/-- After some fields of an object, reading the tokens of the others completes the object. -/
theorem run_fields (fields : List (List Piece × Document)) (hne : fields ≠ [])
    (before : List (List Piece × Document)) (stack : List Frame) (more : List Token) :
    run (name before stack) (Document.fieldTokens fields ++ more) =
      run (complete (.obj (before.reverse ++ fields)) stack) more := by
  match fields with
  | [(n, d)] =>
    simp only [Document.fieldTokens, List.cons_append, List.append_assoc]
    rw [run_cons (colon before n stack) rfl,
      run_cons (value (.fields before n :: stack)) rfl, run_tokens d]
    exact (run_cons _ rfl more).trans (by simp)
  | (n, d) :: f :: rest =>
    simp only [Document.fieldTokens, List.cons_append, List.append_assoc]
    rw [run_cons (colon before n stack) rfl,
      run_cons (value (.fields before n :: stack)) rfl, run_tokens d,
      run_cons (name ((n, d) :: before) stack) rfl,
      run_fields (f :: rest) (List.cons_ne_nil f rest)]
    simp

end

end Reader

/-- Reading the tokens of a document yields the document. -/
theorem Document.read_tokens (d : Document) :
    (d.tokens.foldlM Reader.step (.value [])).bind Reader.finish = some d := by
  have := Reader.run_tokens d [] []
  rw [List.append_nil] at this
  rw [← Reader.run, this]
  rfl

end AdaptivePopulation.Json
