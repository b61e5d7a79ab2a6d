import AdaptivePopulation.Decimal.Numeral

/-!
# JSON tokens

The tokens of a JSON text.  A scanner walks over the characters once; a word or a number ends at the
first character that cannot continue it.
-/

namespace AdaptivePopulation.Json

/-- A piece of a string as it is written: a character, or a UTF-16 unit given by its code. -/
inductive Piece where
  | char (c : Char)
  | unit (code : Nat)
  deriving DecidableEq, Repr

/-- The smallest unit of a text that has a meaning of its own. -/
inductive Token where
  | openBrace
  | closeBrace
  | openBracket
  | closeBracket
  | comma
  | colon
  | null
  | bool (b : Bool)
  | num (n : Decimal.Numeral)
  | str (pieces : List Piece)
  deriving DecidableEq, Repr

/-- A numeral with digits before the point, no superfluous zero in front, and digits after the
point if it has one. -/
def isStrict (n : Decimal.Numeral) : Bool :=
  !n.whole.isEmpty && (n.whole.length == 1 || n.whole.head? != some '0') && n.fraction != some []

/-- The characters that may stand between tokens. -/
def isSpace (c : Char) : Bool := c == ' ' || c == '\n' || c == '\t' || c == '\r'

/-- The characters that numbers are made of. -/
def isNumeric (c : Char) : Bool :=
  c.isDigit || c == '-' || c == '+' || c == '.' || c == 'e' || c == 'E'

/-- The value of a hexadecimal digit in either case. -/
def hexDigit? (c : Char) : Option Nat :=
  if c.isDigit then some (c.toNat - '0'.toNat)
  else if 'a' ≤ c ∧ c ≤ 'f' then some (c.toNat - 'a'.toNat + 10)
  else if 'A' ≤ c ∧ c ≤ 'F' then some (c.toNat - 'A'.toNat + 10)
  else none

/-- What the scanner is inside of, with what it has read of it, last character first. -/
inductive Scanner where
  | between
  | word (reversed : List Char)
  | number (reversed : List Char)
  | text (reversed : List Piece)
  | escape (reversed : List Piece)
  | unit (reversed : List Piece) (digits code : Nat)
  deriving DecidableEq, Repr

namespace Scanner

/-- The token of a word; there are three. -/
def wordToken? (word : List Char) : Option Token :=
  if word = "null".toList then some .null
  else if word = "true".toList then some (.bool true)
  else if word = "false".toList then some (.bool false)
  else none

/-- The token of a number that is written strictly. -/
def numberToken? (lexeme : List Char) : Option Token :=
  match Decimal.Numeral.read? lexeme with
  | some n => if isStrict n then some (.num n) else none
  | none => none

/-- The token that ends where the scanner stands. -/
def finish : Scanner → Option (List Token)
  | between => some []
  | word reversed => (wordToken? reversed.reverse).map ([·])
  | number reversed => (numberToken? reversed.reverse).map ([·])
  | _ => none

/-- The scanner at a character that no word or number goes on with. -/
def start (c : Char) : Option (List Token × Scanner) :=
  if isSpace c then some ([], between)
  else if c.isDigit || c == '-' then some ([], number [c])
  else if c.isAlpha then some ([], word [c])
  else
    match c with
    | '{' => some ([.openBrace], between)
    | '}' => some ([.closeBrace], between)
    | '[' => some ([.openBracket], between)
    | ']' => some ([.closeBracket], between)
    | ',' => some ([.comma], between)
    | ':' => some ([.colon], between)
    | '"' => some ([], text [])
    | _ => none

/-- The character that a one-letter escape stands for. -/
def escaped? : Char → Option Char
  | '"' => some '"'
  | '\\' => some '\\'
  | '/' => some '/'
  | 'b' => some '\x08'
  | 'f' => some '\x0c'
  | 'n' => some '\n'
  | 'r' => some '\r'
  | 't' => some '\t'
  | _ => none

/-- Reads one character: the tokens that it completes, and the scanner after it. -/
def step (s : Scanner) (c : Char) : Option (List Token × Scanner) :=
  match s with
  | between => start c
  | word reversed =>
    if c.isAlpha then some ([], word (c :: reversed))
    else do
      let ended ← finish s
      let (begun, next) ← start c
      some (ended ++ begun, next)
  | number reversed =>
    if isNumeric c then some ([], number (c :: reversed))
    else do
      let ended ← finish s
      let (begun, next) ← start c
      some (ended ++ begun, next)
  | text reversed =>
    if c = '"' then some ([.str reversed.reverse], between)
    else if c = '\\' then some ([], escape reversed)
    else if c.toNat < 0x20 then none
    else some ([], text (.char c :: reversed))
  | escape reversed =>
    if c = 'u' then some ([], unit reversed 0 0)
    else (escaped? c).map fun d => ([], text (.char d :: reversed))
  | unit reversed digits code =>
    (hexDigit? c).map fun d =>
      let code := 16 * code + d
      ([], if digits = 3 then text (.unit code :: reversed) else unit reversed (digits + 1) code)

/-- The tokens of the rest of a text. -/
def scan : Scanner → List Char → Option (List Token)
  | s, [] => s.finish
  | s, c :: rest => do
    let (tokens, next) ← s.step c
    let more ← scan next rest
    some (tokens ++ more)

end Scanner

/-- The tokens of a text. -/
def tokens? (text : List Char) : Option (List Token) := Scanner.scan .between text

end AdaptivePopulation.Json
