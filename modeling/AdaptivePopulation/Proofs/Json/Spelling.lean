import AdaptivePopulation.Proofs.Json.Documents
import AdaptivePopulation.Proofs.Json.Scanning

/-!
# Texts of documents

One document has many texts: blanks may stand around each token, and the characters of a string may
be escaped in several ways.  All of them are read as this document.
-/

namespace AdaptivePopulation.Json

open Scanner

/-- The character of a token of punctuation. -/
def Token.mark? : Token → Option Char
  | .openBrace => some '{'
  | .closeBrace => some '}'
  | .openBracket => some '['
  | .closeBracket => some ']'
  | .comma => some ','
  | .colon => some ':'
  | .null | .bool _ | .num _ | .str _ => none

/-- Words and numbers end only where a character follows that cannot continue them. -/
def Token.IsOpenEnded : Token → Prop
  | .null | .bool _ | .num _ => True
  | .openBrace | .closeBrace | .openBracket | .closeBracket | .comma | .colon | .str _ => False

theorem Token.not_isOpenEnded {t : Token} {c : Char} (h : t.mark? = some c) : ¬ t.IsOpenEnded := by
  cases t <;> simp_all [mark?, IsOpenEnded]

/-- How a token may be written. -/
inductive TokenText : Token → List Char → Prop where
  | mark {t : Token} {c : Char} (h : t.mark? = some c) : TokenText t [c]
  | null : TokenText .null "null".toList
  | bool (b : Bool) : TokenText (.bool b) (if b then "true" else "false").toList
  | num {text : List Char} {n : Decimal.Numeral} (h : Decimal.Spells text n) (hs : isStrict n) :
    TokenText (.num n) text
  | str {pieces : List Piece} {texts : List (List Char)} (h : List.Forall₂ PieceText pieces texts) :
    TokenText (.str pieces) ('"' :: texts.flatten ++ ['"'])

/-- How tokens may be written one after another, with blanks around each of them. -/
inductive TokensText : List Token → List Char → Prop where
  | nil : TokensText [] []
  | blank {c : Char} (hc : isSpace c) {tokens : List Token} {text : List Char}
    (h : TokensText tokens text) : TokensText tokens (c :: text)
  | cons {t : Token} {first : List Char} (hf : TokenText t first) {tokens : List Token}
    {rest : List Char} (apart : t.IsOpenEnded → Delimited rest) (hr : TokensText tokens rest) :
    TokensText (t :: tokens) (first ++ rest)

/-- A written string is a token. -/
theorem tokenText_writeString (s : String) : TokenText (.str (piecesOf s)) (writeString s) :=
  .str (pieceText_writeChars s)

/-- Punctuation may stand before anything. -/
theorem TokensText.mark {t : Token} {c : Char} (h : t.mark? = some c) {tokens : List Token}
    {rest : List Char} (hr : TokensText tokens rest) : TokensText (t :: tokens) (c :: rest) :=
  .cons (.mark h) (fun continued => absurd continued (Token.not_isOpenEnded h)) hr

theorem start_mark {t : Token} {c : Char} (h : t.mark? = some c) :
    start c = some ([t], between) := by
  cases t <;> cases h <;> rfl

theorem scan_tokenText {t : Token} {first rest : List Char} (hf : TokenText t first)
    (apart : t.IsOpenEnded → Delimited rest) :
    scan between (first ++ rest) = (scan between rest).map (t :: ·) := by
  cases hf with
  | @mark t c h => exact scan_cons (s := between) (start_mark h) rest
  | null => exact scan_wordToken (c := 'n') rfl rfl rfl (apart trivial)
  | bool b =>
    cases b with
    | true => exact scan_wordToken (c := 't') rfl rfl rfl (apart trivial)
    | false => exact scan_wordToken (c := 'f') rfl rfl rfl (apart trivial)
  | num h hs => exact scan_numeral h hs (apart trivial)
  | str h => simpa using scan_quoted h rest

/-- The scanner finds the tokens in each of their texts. -/
theorem scan_tokensText {tokens : List Token} {text : List Char} (h : TokensText tokens text) :
    scan between text = some tokens := by
  induction h with
  | nil => rfl
  | @blank c hc _ _ _ ih =>
    have skipped : between.step c = some ([], between) := by simp [step, start, hc]
    rw [scan_silent between skipped, ih]
  | cons hf apart _ ih => rw [scan_tokenText hf apart, ih, Option.map_some]

/-- A document is read from each of its texts. -/
theorem Document.read?_text {d : Document} {text : List Char} (h : TokensText d.tokens text) :
    Document.read? text = some d := by
  rw [Document.read?, tokens?, scan_tokensText h]
  exact d.read_tokens

end AdaptivePopulation.Json
