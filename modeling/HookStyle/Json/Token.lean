import HookStyle.Text.Units

/-!
# Tokens

The tokens of the data format JSON: punctuation, the three words, numbers and texts. White
space between them is blank, tab, line feed and carriage return only.

A text may escape UTF-16 code units, and units that form no character leave the text
without a value; such a text is still a token. Numbers are checked, but have no value here.
-/

namespace HookStyle.Json

inductive Token where
  | leftBrace
  | rightBrace
  | leftBracket
  | rightBracket
  | comma
  | colon
  | null
  | bool (b : Bool)
  | number
  | text (s : Option String)
  deriving DecidableEq, Repr

/-! ## Numbers -/

def isDigits (cs : List Char) : Bool := !cs.isEmpty && cs.all Char.isDigit

/-- Nothing, or the exponent of a number. -/
def isExponent : List Char → Bool
  | [] => true
  | e :: '+' :: cs => (e == 'e' || e == 'E') && isDigits cs
  | e :: '-' :: cs => (e == 'e' || e == 'E') && isDigits cs
  | e :: cs => (e == 'e' || e == 'E') && isDigits cs

/-- What may follow the whole part of a number. -/
def isFraction : List Char → Bool
  | '.' :: d :: cs => d.isDigit && isExponent (cs.dropWhile Char.isDigit)
  | cs => isExponent cs

/-- A number without its sign. The whole part has no leading zero. -/
def isUnsigned : List Char → Bool
  | '0' :: cs => isFraction cs
  | d :: cs => d.isDigit && isFraction (cs.dropWhile Char.isDigit)
  | [] => false

def isNumber : List Char → Bool
  | '-' :: cs => isUnsigned cs
  | cs => isUnsigned cs

/-! ## Texts -/

/-- A part of a text: a character, or an escaped code unit. -/
inductive Piece where
  | char (c : Char)
  | unit (u : Nat)
  deriving DecidableEq, Repr

/-- The characters of the pieces, if every surrogate has its partner. -/
def chars? : List Piece → Option (List Char)
  | [] => some []
  | .char c :: rest => (chars? rest).map (c :: ·)
  | .unit u :: .unit v :: rest =>
    if Text.isHighSurrogate u then
      match Text.ofPair? u v with
      | some c => (chars? rest).map (c :: ·)
      | none => none
    else if Text.isLowSurrogate u then none
    else (chars? (.unit v :: rest)).map (Char.ofNat u :: ·)
  | .unit u :: rest =>
    if Text.isHighSurrogate u || Text.isLowSurrogate u then none
    else (chars? rest).map (Char.ofNat u :: ·)

/-- The character that a letter after a backslash stands for. -/
def escaped? : Char → Option Char
  | '"' => some '"'
  | '\\' => some '\\'
  | '/' => some '/'
  | 'b' => some '\x08'
  | 'f' => some '\x0c'
  | 'n' => some '\n'
  | 'r' => some '\r'
  | 't' => some '\t'
  | _ => none

/-- The value of a hexadecimal digit, of either case. -/
def hexValue? (c : Char) : Option Nat :=
  if c.isDigit then some (c.toNat - '0'.toNat)
  else if 'a' ≤ c ∧ c ≤ 'f' then some (c.toNat - 'a'.toNat + 10)
  else if 'A' ≤ c ∧ c ≤ 'F' then some (c.toNat - 'A'.toNat + 10)
  else none

/-! ## Scanning -/

/-- Where the scanner stands. Pieces and characters are collected in reverse. -/
inductive Mode where
  | between
  /-- In a word or a number. -/
  | run (cs : List Char)
  | text (pieces : List Piece)
  | escape (pieces : List Piece)
  /-- In an escaped code unit of which `left` digits are still to come. -/
  | unit (pieces : List Piece) (left : Nat) (value : Nat)

/-- The tokens so far, the last one first, and the mode. -/
structure Scan where
  tokens : List Token
  mode : Mode

namespace Scan

def runToken? (cs : List Char) : Option Token :=
  if cs = "null".toList then some .null
  else if cs = "true".toList then some (.bool true)
  else if cs = "false".toList then some (.bool false)
  else if isNumber cs then some .number
  else none

def mark? : Char → Option Token
  | '\x7b' => some .leftBrace
  | '\x7d' => some .rightBrace
  | '[' => some .leftBracket
  | ']' => some .rightBracket
  | ',' => some .comma
  | ':' => some .colon
  | _ => none

def isSpace (c : Char) : Bool := c == ' ' || c == '\t' || c == '\n' || c == '\r'

/-- A character that ends a run. -/
def endsRun (c : Char) : Bool := isSpace c || (mark? c).isSome || c == '"'

/-- Takes one character after a complete token. -/
def start (tokens : List Token) (c : Char) : Scan :=
  if isSpace c then ⟨tokens, .between⟩
  else if c = '"' then ⟨tokens, .text []⟩
  else
    match mark? c with
    | some token => ⟨token :: tokens, .between⟩
    | none => ⟨tokens, .run [c]⟩

/-- Takes one character; `none` when it cannot stand there. -/
def step (s : Scan) (c : Char) : Option Scan :=
  match s.mode with
  | .between => some (start s.tokens c)
  | .run cs =>
    if endsRun c then (runToken? cs.reverse).map fun token => start (token :: s.tokens) c
    else some ⟨s.tokens, .run (c :: cs)⟩
  | .text pieces =>
    if c = '"' then
      some ⟨.text ((chars? pieces.reverse).map String.ofList) :: s.tokens, .between⟩
    else if c = '\\' then some ⟨s.tokens, .escape pieces⟩
    else if c.toNat < 0x20 then none
    else some ⟨s.tokens, .text (.char c :: pieces)⟩
  | .escape pieces =>
    if c = 'u' then some ⟨s.tokens, .unit pieces 4 0⟩
    else (escaped? c).map fun d => ⟨s.tokens, .text (.char d :: pieces)⟩
  | .unit pieces left value =>
    (hexValue? c).map fun d =>
      if left ≤ 1 then ⟨s.tokens, .text (.unit (16 * value + d) :: pieces)⟩
      else ⟨s.tokens, .unit pieces (left - 1) (16 * value + d)⟩

/-- The tokens of a scan at the end of its input. -/
def finish? (s : Scan) : Option (List Token) :=
  match s.mode with
  | .between => some s.tokens.reverse
  | .run cs => (runToken? cs.reverse).map fun token => (token :: s.tokens).reverse
  | _ => none

end Scan

def tokens? (s : String) : Option (List Token) :=
  (s.toList.foldlM Scan.step ⟨[], .between⟩).bind Scan.finish?

end HookStyle.Json
