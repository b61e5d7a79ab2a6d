import AdaptivePopulation.Json.Decoder
import AdaptivePopulation.Json.Writer
import AdaptivePopulation.Proofs.Decimal.Numerals
import Mathlib.Data.List.Forall2

/-!
# Scanning what is written

The scanner takes a written word, number or string for one token, whatever follows it, as long as a
word or a number is followed by a character that cannot continue it.
-/

namespace AdaptivePopulation.Json

/-! ## Characters of numbers -/

theorem isNumeric_of_isDigit {c : Char} (h : c.isDigit) : isNumeric c := by simp [isNumeric, h]

theorem mem_splitSign {text : List Char} {c : Char} (h : c ∈ text) :
    isNumeric c ∨ c ∈ (Decimal.splitSign text).2 := by
  unfold Decimal.splitSign
  split
  · obtain rfl | h := List.mem_cons.1 h
    · exact .inl rfl
    · exact .inr h
  · obtain rfl | h := List.mem_cons.1 h
    · exact .inl rfl
    · exact .inr h
  · exact .inr h

theorem isNumeric_of_readExponent {text : List Char} {exponent : Option Int}
    (h : Decimal.Numeral.readExponent text = some exponent) : ∀ c ∈ text, isNumeric c := by
  cases text with
  | nil => simp
  | cons e rest =>
    have letter := Decimal.readExponent_head h e rfl
    have digits : ∀ c ∈ (Decimal.splitSign rest).2, c.isDigit := by
      by_contra hd
      have refused : ¬ (Decimal.splitSign rest).2.all Char.isDigit := by simpa using hd
      simp [Decimal.Numeral.readExponent, letter, refused] at h
    rintro c (_ | ⟨_, hc⟩)
    · obtain rfl | rfl := letter <;> rfl
    · exact (mem_splitSign hc).elim id fun hc => isNumeric_of_isDigit (digits c hc)

theorem isDigit_of_mem_takeWhile {l : List Char} {c : Char} (h : c ∈ l.takeWhile Char.isDigit) :
    c.isDigit :=
  List.all_eq_true.1 List.all_takeWhile c h

/-- All of a text that is read as a numeral is made of the characters of numbers. -/
theorem isNumeric_of_read? {text : List Char} {n : Decimal.Numeral}
    (h : Decimal.Numeral.read? text = some n) : ∀ c ∈ text, isNumeric c := by
  intro c hc
  obtain hc | hc := mem_splitSign hc
  · exact hc
  rw [← List.takeWhile_append_dropWhile (p := Char.isDigit) (l := (Decimal.splitSign text).2)] at hc
  obtain hc | hc := List.mem_append.1 hc
  · exact isNumeric_of_isDigit (isDigit_of_mem_takeWhile hc)
  unfold Decimal.Numeral.read? at h
  dsimp only at h
  split at h
  next rest hrest =>
    split_ifs at h
    obtain ⟨exponent, he, -⟩ := Option.bind_eq_some_iff.1 h
    rw [hrest] at hc
    obtain rfl | hc := List.mem_cons.1 hc
    · rfl
    rw [← List.takeWhile_append_dropWhile (p := Char.isDigit) (l := rest)] at hc
    obtain hc | hc := List.mem_append.1 hc
    · exact isNumeric_of_isDigit (isDigit_of_mem_takeWhile hc)
    · exact isNumeric_of_readExponent he c hc
  next =>
    split_ifs at h
    obtain ⟨exponent, he, -⟩ := Option.bind_eq_some_iff.1 h
    exact isNumeric_of_readExponent he c hc

namespace Scanner

/-! ## Steps -/

theorem scan_cons {s next : Scanner} {c : Char} {ended : List Token}
    (h : s.step c = some (ended, next)) (rest : List Char) :
    scan s (c :: rest) = (scan next rest).map (ended ++ ·) := by
  simp only [scan, h, Option.bind_eq_bind, Option.bind_some]
  cases scan next rest <;> rfl

theorem scan_silent {s : Scanner} (next : Scanner) {c : Char} (h : s.step c = some ([], next))
    (rest : List Char) : scan s (c :: rest) = scan next rest := by
  simp [scan_cons h]

/-- A word or a number that ends where the rest of the text begins. -/
theorem scan_ended {s : Scanner} {t : Token} (hf : s.finish = some [t]) {rest : List Char}
    (hs : ∀ c ∈ rest.head?, s.step c = (start c).map fun p => (t :: p.1, p.2)) :
    scan s rest = (scan between rest).map (t :: ·) := by
  cases rest with
  | nil => simpa [scan, finish] using hf
  | cons c rest =>
    have step := hs c rfl
    cases h : start c with
    | none =>
      have begun : between.step c = none := h
      rw [h] at step
      simp [scan, begun, step]
    | some p =>
      have begun : between.step c = some (p.1, p.2) := h
      rw [h] at step
      rw [scan_cons step, scan_cons begun, Option.map_map]
      rfl

/-- The text is at its end or goes on with a character that ends a word and a number. -/
def Delimited (rest : List Char) : Prop :=
  ∀ c ∈ rest.head?, c.isAlpha = false ∧ isNumeric c = false

theorem delimited_nil : Delimited [] := by simp [Delimited]

theorem delimited_cons {c : Char} (h : c.isAlpha = false ∧ isNumeric c = false) (rest : List Char) :
    Delimited (c :: rest) := by
  simpa [Delimited] using h

/-! ## Words -/

theorem scan_word {w : List Char} (hw : ∀ c ∈ w, c.isAlpha) (reversed : List Char) {t : Token}
    (ht : wordToken? (reversed.reverse ++ w) = some t) {rest : List Char} (hr : Delimited rest) :
    scan (word reversed) (w ++ rest) = (scan between rest).map (t :: ·) := by
  induction w generalizing reversed with
  | nil =>
    rw [List.append_nil] at ht
    refine scan_ended (by simp [finish, ht]) fun c hc => ?_
    simp only [step, (hr c hc).1, finish, ht]
    cases start c <;> rfl
  | cons c w ih =>
    have step : (word reversed).step c = some ([], word (c :: reversed)) := by
      simp [step, hw c List.mem_cons_self]
    rw [List.cons_append, scan_silent _ step]
    exact ih (fun d hd => hw d (List.mem_cons_of_mem c hd)) (c :: reversed) (by simpa using ht)

/-- A word that begins between tokens. -/
theorem scan_wordToken {c : Char} {w : List Char} (hc : start c = some ([], word [c]))
    (hw : w.all Char.isAlpha) {t : Token} (ht : wordToken? (c :: w) = some t) {rest : List Char}
    (hr : Delimited rest) :
    scan between (c :: w ++ rest) = (scan between rest).map (t :: ·) := by
  have begun : between.step c = some ([], word [c]) := hc
  rw [List.cons_append, scan_silent _ begun]
  exact scan_word (List.all_eq_true.1 hw) [c] ht hr

/-! ## Numbers -/

theorem scan_number {w : List Char} (hw : ∀ c ∈ w, isNumeric c) {reversed : List Char} {t : Token}
    (ht : numberToken? (reversed.reverse ++ w) = some t) {rest : List Char} (hr : Delimited rest) :
    scan (number reversed) (w ++ rest) = (scan between rest).map (t :: ·) := by
  induction w generalizing reversed with
  | nil =>
    rw [List.append_nil] at ht
    refine scan_ended (by simp [finish, ht]) fun c hc => ?_
    simp only [step, (hr c hc).2, finish, ht]
    cases start c <;> rfl
  | cons c w ih =>
    have step : (number reversed).step c = some ([], number (c :: reversed)) := by
      simp [step, hw c List.mem_cons_self]
    rw [List.cons_append, scan_silent _ step]
    exact ih (fun d hd => hw d (List.mem_cons_of_mem c hd)) (by simpa using ht)

theorem start_number {c : Char} (hc : c.isDigit ∨ c = '-') : start c = some ([], number [c]) := by
  have notSpace : isSpace c = false := by
    obtain hc | rfl := hc
    · rw [Bool.eq_false_iff]
      intro h
      simp only [isSpace, Bool.or_eq_true, beq_iff_eq] at h
      obtain ((rfl | rfl) | rfl) | rfl := h <;> contradiction
    · rfl
  simp [start, notSpace, hc]

/-- The text of a number that begins between tokens. -/
theorem scan_numeral {text : List Char} {n : Decimal.Numeral} (h : Decimal.Spells text n)
    (hs : isStrict n) {rest : List Char} (hr : Delimited rest) :
    scan between (text ++ rest) = (scan between rest).map (.num n :: ·) := by
  obtain ⟨c, hc, starts⟩ := h.starts
  obtain ⟨w, rfl⟩ : ∃ w, text = c :: w := List.head?_eq_some_iff.1 hc
  have begun : between.step c = some ([], number [c]) := start_number starts
  rw [List.cons_append, scan_silent _ begun]
  refine scan_number (fun d hd => isNumeric_of_read? h.reads d (List.mem_cons_of_mem c hd)) ?_ hr
  simp [numberToken?, h.reads, hs]

/-! ## Strings -/

/-- The piece that a character is written as. -/
def pieceOf (c : Char) : Piece :=
  if c.toNat < 0x20 ∧ c ≠ '\x08' ∧ c ≠ '\x0c' ∧ c ≠ '\n' ∧ c ≠ '\r' ∧ c ≠ '\t' then .unit c.toNat
  else .char c

theorem hexDigit?_digitChar {d : Nat} (h : d < 16) : hexDigit? (Nat.digitChar d) = some d := by
  decide +revert

/-- How a piece of a string may be written. -/
inductive PieceText : Piece → List Char → Prop where
  | plain {c : Char} (quote : c ≠ '"') (backslash : c ≠ '\\') (printable : 0x20 ≤ c.toNat) :
    PieceText (.char c) [c]
  | escaped {e c : Char} (h : escaped? e = some c) : PieceText (.char c) ['\\', e]
  | unit {a b c d : Char} {i j k l : Nat} (ha : hexDigit? a = some i) (hb : hexDigit? b = some j)
    (hc : hexDigit? c = some k) (hd : hexDigit? d = some l) :
    PieceText (.unit (16 * (16 * (16 * i + j) + k) + l)) ['\\', 'u', a, b, c, d]

theorem scan_piece {p : Piece} {t : List Char} (h : PieceText p t) (reversed : List Piece)
    (rest : List Char) : scan (text reversed) (t ++ rest) = scan (text (p :: reversed)) rest := by
  cases h with
  | @plain c quote backslash printable =>
    exact scan_silent _ (by simp [step, quote, backslash, Nat.not_lt.2 printable]) rest
  | @escaped e c h =>
    have letter : e ≠ 'u' := by rintro rfl; cases h
    simp only [List.cons_append, List.nil_append]
    rw [scan_silent (escape reversed) rfl,
      scan_silent (text (.char c :: reversed)) (by simp [step, letter, h])]
  | @unit a b c d i j k l ha hb hc hd =>
    simp only [List.cons_append, List.nil_append]
    rw [scan_silent (escape reversed) rfl, scan_silent (unit reversed 0 0) rfl,
      scan_silent (unit reversed 1 i) (by simp [step, ha]),
      scan_silent (unit reversed 2 (16 * i + j)) (by simp [step, hb]),
      scan_silent (unit reversed 3 (16 * (16 * i + j) + k)) (by simp [step, hc]),
      scan_silent (text (.unit (16 * (16 * (16 * i + j) + k) + l) :: reversed))
        (by simp [step, hd])]

theorem scan_pieces {pieces : List Piece} {texts : List (List Char)}
    (h : List.Forall₂ PieceText pieces texts) (reversed : List Piece) (rest : List Char) :
    scan (text reversed) (texts.flatten ++ rest) =
      scan (text (pieces.reverse ++ reversed)) rest := by
  induction h generalizing reversed with
  | nil => rfl
  | cons h _ ih =>
    rw [List.flatten_cons, List.append_assoc, scan_piece h, ih]
    simp

theorem pieceText_control {code : Nat} (h : code < 0x20) :
    PieceText (.unit code)
      ['\\', 'u', '0', '0', Nat.digitChar (code / 16), Nat.digitChar (code % 16)] := by
  have high := hexDigit?_digitChar (show code / 16 < 16 by omega)
  have low := hexDigit?_digitChar (show code % 16 < 16 by omega)
  have zero : hexDigit? '0' = some 0 := rfl
  have written := PieceText.unit zero zero high low
  rwa [show 16 * (16 * (16 * 0 + 0) + code / 16) + code % 16 = code by omega] at written

/-- A character of a string is written as its piece. -/
theorem pieceText_writeChar (c : Char) : PieceText (pieceOf c) (writeChar c) := by
  unfold writeChar
  split
  · exact .escaped (e := '"') rfl
  · exact .escaped (e := '\\') rfl
  · exact .escaped (e := 'b') rfl
  · exact .escaped (e := 'f') rfl
  · exact .escaped (e := 'n') rfl
  · exact .escaped (e := 'r') rfl
  · exact .escaped (e := 't') rfl
  · split_ifs with hc
    · rw [pieceOf, if_pos (by simp_all)]
      exact pieceText_control hc
    · rw [pieceOf, if_neg (by simp [hc])]
      exact .plain (by simp_all) (by simp_all) (Nat.not_lt.1 hc)

/-- The pieces that a string is written as. -/
def piecesOf (s : String) : List Piece := s.toList.map pieceOf

theorem pieceText_writeChars (s : String) :
    List.Forall₂ PieceText (piecesOf s) (s.toList.map writeChar) := by
  rw [piecesOf, List.forall₂_map_left_iff, List.forall₂_map_right_iff, List.forall₂_same]
  exact fun c _ => pieceText_writeChar c

/-- A string between its quotes. -/
theorem scan_quoted {pieces : List Piece} {texts : List (List Char)}
    (h : List.Forall₂ PieceText pieces texts) (rest : List Char) :
    scan between ('"' :: texts.flatten ++ '"' :: rest) =
      (scan between rest).map (.str pieces :: ·) := by
  have quote : (text (pieces.reverse ++ [])).step '"' = some ([.str pieces], between) := by
    simp [step]
  rw [List.cons_append, scan_silent (text []) rfl, scan_pieces h, scan_cons quote]
  rfl

end Scanner

end AdaptivePopulation.Json
