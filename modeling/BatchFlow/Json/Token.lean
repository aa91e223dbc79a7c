import BatchFlow.Json.Basic
import BatchFlow.Json.Literal

namespace BatchFlow.Json

/-!
# Tokens of a JSON text

* `Token` — a bracket, a separator, a text or another scalar. A text or number may be well formed
  and denote nothing: a half of a surrogate pair alone, a number beyond the doubles.
* `Lexer` — what is known after some characters: the tokens so far and the token under way.
* `Token.ofText?` — the tokens of a text, one character after another.
-/

/-- A token. `none` stands for a literal that follows the grammar and denotes nothing. -/
inductive Token where
  | openArray
  | closeArray
  | openObject
  | closeObject
  | comma
  | colon
  | text (value : Option String)
  | scalar (value : Option Json)

/-- The token that is under way. Characters and code units are kept last first. -/
inductive Pending where
  | nothing
  | word (letters : List Char)
  | number (chars : List Char)
  | string (units : List Nat)
  | escape (units : List Nat)
  | hex (units : List Nat) (digits : Nat) (value : Nat)

/-- The tokens so far, last first, and the token under way. -/
structure Lexer where
  tokens : List Token
  pending : Pending

/-- The characters that a list of code points and surrogates denotes: a high surrogate and the low
    one after it make one character, and a surrogate alone denotes nothing. -/
def ofUnits? : List Nat → Option (List Char)
  | [] => some []
  | unit :: rest =>
    if 0xD800 ≤ unit ∧ unit < 0xDC00 then
      match rest with
      | low :: rest =>
        if 0xDC00 ≤ low ∧ low < 0xE000 then
          (ofUnits? rest).map
            (Char.ofNat (0x10000 + (unit - 0xD800) * 0x400 + (low - 0xDC00)) :: ·)
        else none
      | [] => none
    else if 0xDC00 ≤ unit ∧ unit < 0xE000 then none
    else (ofUnits? rest).map (Char.ofNat unit :: ·)

/-- The value of a hexadecimal digit. -/
def hexDigit? (c : Char) : Option Nat :=
  if c.isDigit then some (c.toNat - '0'.toNat)
  else if 'a' ≤ c ∧ c ≤ 'f' then some (c.toNat - 'a'.toNat + 10)
  else if 'A' ≤ c ∧ c ≤ 'F' then some (c.toNat - 'A'.toNat + 10)
  else none

/-- The character that a one-letter escape stands for. -/
def escaped? : Char → Option Nat
  | '"' => some 0x22
  | '\\' => some 0x5C
  | '/' => some 0x2F
  | 'b' => some 0x08
  | 'f' => some 0x0C
  | 'n' => some 0x0A
  | 'r' => some 0x0D
  | 't' => some 0x09
  | _ => none

/-- The three words of the grammar. -/
def word? (letters : List Char) : Option Json :=
  if letters = "null".toList then some .null
  else if letters = "true".toList then some (.bool true)
  else if letters = "false".toList then some (.bool false)
  else none

/-- The characters that a number literal may contain. -/
def isNumberChar (c : Char) : Bool :=
  c.isDigit || c == '-' || c == '+' || c == '.' || c == 'e' || c == 'E'

namespace Lexer

/-- A character between two tokens. -/
def start? (tokens : List Token) (c : Char) : Option Lexer :=
  match c with
  | ' ' | '\t' | '\n' | '\r' => some ⟨tokens, .nothing⟩
  | '[' => some ⟨.openArray :: tokens, .nothing⟩
  | ']' => some ⟨.closeArray :: tokens, .nothing⟩
  | '{' => some ⟨.openObject :: tokens, .nothing⟩
  | '}' => some ⟨.closeObject :: tokens, .nothing⟩
  | ',' => some ⟨.comma :: tokens, .nothing⟩
  | ':' => some ⟨.colon :: tokens, .nothing⟩
  | '"' => some ⟨tokens, .string []⟩
  | c =>
    if c.isDigit || c == '-' then some ⟨tokens, .number [c]⟩
    else if c.isAlpha then some ⟨tokens, .word [c]⟩
    else none

/-- Ends a word or a number that is under way. -/
def settle? (lexer : Lexer) : Option (List Token) :=
  match lexer.pending with
  | .nothing => some lexer.tokens
  | .word letters => (word? letters.reverse).map fun j => .scalar (some j) :: lexer.tokens
  | .number chars => (Literal.ofChars? chars.reverse).map fun l =>
      .scalar (l.number?.map .number) :: lexer.tokens
  | .string _ | .escape _ | .hex .. => none

/-- One character more. -/
def step? (lexer : Lexer) (c : Char) : Option Lexer :=
  match lexer.pending with
  | .nothing => start? lexer.tokens c
  | .word letters =>
    if c.isAlpha then some { lexer with pending := .word (c :: letters) }
    else do start? (← lexer.settle?) c
  | .number chars =>
    if isNumberChar c then some { lexer with pending := .number (c :: chars) }
    else do start? (← lexer.settle?) c
  | .string units =>
    if c = '"' then
      some ⟨.text ((ofUnits? units.reverse).map String.ofList) :: lexer.tokens, .nothing⟩
    else if c = '\\' then some { lexer with pending := .escape units }
    else if c.toNat < 0x20 then none
    else some { lexer with pending := .string (c.toNat :: units) }
  | .escape units =>
    if c = 'u' then some { lexer with pending := .hex units 0 0 }
    else (escaped? c).map fun unit => { lexer with pending := .string (unit :: units) }
  | .hex units digits value => do
    let value := 16 * value + (← hexDigit? c)
    return { lexer with
      pending := if digits = 3 then .string (value :: units) else .hex units (digits + 1) value }

/-- Several characters more. -/
def run? (lexer : Lexer) : List Char → Option Lexer
  | [] => some lexer
  | c :: rest => do (← lexer.step? c).run? rest

end Lexer

/-- The tokens of a text, if it consists of tokens and blanks. -/
def Token.ofText? (text : String) : Option (List Token) := do
  return (← (← Lexer.run? ⟨[], .nothing⟩ text.toList).settle?).reverse

end BatchFlow.Json
