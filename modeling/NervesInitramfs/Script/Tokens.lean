import NervesInitramfs.CLib.Flex
import NervesInitramfs.Script.Tables

/-!
# The tokens of a script (`lexer.l`)

The rules of the scanner, in their order. What no rule matches is copied to the output.
-/

namespace NervesInitramfs

open CLib

/-- A character in a rule. -/
def isByte (c : UInt8) : UInt8 → Bool := fun d => d = c

/-- A text in quotes in a rule. -/
def literal (s : String) : Pattern := (text s).map fun c => .one (isByte c)

/-- `[0-9]` -/
def digit (c : UInt8) : Bool := 48 ≤ c && c ≤ 57

/-- `[0-9a-fA-F]` -/
def hexDigit (c : UInt8) : Bool := digit c || (97 ≤ c && c ≤ 102) || (65 ≤ c && c ≤ 70)

/-- `[ \t]+` -/
def wsPattern : Pattern := [.plus fun c => c = 32 || c = 9]

/-- `\n` -/
def nlPattern : Pattern := [.one (isByte 10)]

/-- In flex the dot stands for all bytes but the newline. -/
def commentPattern : Pattern := [.one (isByte 35), .star fun c => c ≠ 10]

/-- The bytes of an identifier, at least one of them. -/
def identifierPattern : Pattern := [.plus identifierByte]

/-- `0x` and digits. -/
def hexNumberPattern : Pattern := [.one (isByte 48), .one (isByte 120), .plus hexDigit]

/-- Digits. -/
def decNumberPattern : Pattern := [.plus digit]

/-- Two quotes on one line, and what is between them. -/
def stringPattern : Pattern :=
  [.one (isByte 34), .star fun c => c ≠ 34 && c ≠ 10, .one (isByte 34)]

/-- A rule that returns nothing. -/
def skipped (pattern : Pattern) : ScanRule ParserLexeme := ⟨pattern, fun _ => none⟩

/-- A rule that returns a token without looking at the text. -/
def returned (pattern : Pattern) (l : ParserLexeme) : ScanRule ParserLexeme :=
  ⟨pattern, fun _ => some l⟩

/-- `term_new_qstring`: the string behind the first quote, up to a NUL in the token or its end, of
which the last byte is replaced by the terminator. -/
def stringLexeme (yytext : List UInt8) : Option ParserLexeme :=
  some ⟨.string, CString.ofBytes (CString.ofBytes yytext.tail).bytes.dropLast⟩

/-- The text of a number, with the base in which `strtoul` reads it. -/
def numberLexeme (base : Nat) (yytext : List UInt8) : Option ParserLexeme :=
  some ⟨.number, Prod.mk base yytext⟩

/-- `term_new_identifier`. The pattern matches nothing but the text of an `Identifier`. -/
def identifierLexeme (yytext : List UInt8) : Option ParserLexeme :=
  if h : (CString.ofBytes yytext).bytes ≠ [] ∧
      (CString.ofBytes yytext).bytes.all identifierByte then
    some ⟨.identifier, Identifier.mk (CString.ofBytes yytext) ⟨h.1, List.all_eq_true.mp h.2⟩⟩
  else none

def lexerRules : List (ScanRule ParserLexeme) :=
  [skipped wsPattern,
   skipped commentPattern,
   returned (literal "true") ⟨.boolean, true⟩,
   returned (literal "false") ⟨.boolean, false⟩,
   returned (literal "\x7b") ⟨.leftBrace, ()⟩,
   returned (literal "\x7d") ⟨.rightBrace, ()⟩,
   returned (literal "(") ⟨.leftParen, ()⟩,
   returned (literal ")") ⟨.rightParen, ()⟩,
   returned (literal "&&") ⟨.and, ()⟩,
   returned (literal "||") ⟨.or, ()⟩,
   returned (literal "==") ⟨.eq, ()⟩,
   returned (literal "!=") ⟨.neq, ()⟩,
   returned (literal "<=") ⟨.lte, ()⟩,
   returned (literal ">=") ⟨.gte, ()⟩,
   returned (literal ">") ⟨.gt, ()⟩,
   returned (literal "<") ⟨.lt, ()⟩,
   returned (literal "!") ⟨.not, ()⟩,
   returned (literal "=") ⟨.assign, ()⟩,
   returned (literal "->") ⟨.arrow, ()⟩,
   skipped (literal ";"),
   returned (literal "+") ⟨.plus, ()⟩,
   returned (literal "-") ⟨.minus, ()⟩,
   returned (literal ",") ⟨.comma, ()⟩,
   ⟨stringPattern, stringLexeme⟩,
   ⟨hexNumberPattern, numberLexeme 16⟩,
   ⟨decNumberPattern, numberLexeme 10⟩,
   ⟨identifierPattern, identifierLexeme⟩,
   skipped nlPattern]

/-- The tokens that `yylex` returns for a text, up to the end of the text. -/
def yylex (input : List UInt8) : List ParserLexeme := scan lexerRules input

/-! ## Separating statements -/

/-- Where a place in a text is: between tokens or in one, behind a quote that is still open on its
line, or in a comment. -/
inductive Mode
  | code | string | comment
deriving DecidableEq

/-- A quote opens or ends a string, `#` begins a comment, and a line break ends both. -/
def Mode.next (mode : Mode) (c : UInt8) : Mode :=
  if c = 10 then .code
  else match mode with
    | .code => if c = 34 then .string else if c = 35 then .comment else .code
    | .string => if c = 34 then .code else .string
    | .comment => .comment

/-- Where the end of a text is. -/
def modeAfter (input : List UInt8) : Mode := input.foldl Mode.next .code

/-- What stands between two statements. -/
inductive Separator
  | newline
  | semicolon
deriving DecidableEq

/-- The character itself. -/
def Separator.byte : Separator → UInt8
  | .newline => 10
  | .semicolon => 59

/-- The text of statements with separators between them; the one behind the last is left out. -/
def joined : List (CString × Separator) → List UInt8
  | [] => []
  | [(statement, _)] => statement.bytes
  | (statement, sep) :: rest => statement.bytes ++ sep.byte :: joined rest

/-- The token that a text begins with. -/
def firstToken (l : List ParserLexeme) : Option Token := l.head?.map Lexeme.token

/-- The token that it ends in. -/
def lastToken (l : List ParserLexeme) : Option Token := l.getLast?.map Lexeme.token

/-- The first of two statements goes on with the beginning of the second: an assignment that is not
in braces goes on with a minus, and an identifier at the end with a parenthesis. -/
def Absorbs (first second : List ParserLexeme) : Prop :=
  (firstToken second = some .minus ∧ .assign ∈ first.map Lexeme.token ∧
      lastToken first ≠ some .rightBrace) ∨
    (firstToken second = some .leftParen ∧ lastToken first = some .identifier)

instance (first second : List ParserLexeme) : Decidable (Absorbs first second) :=
  inferInstanceAs (Decidable (_ ∨ _))

/-- No statement goes on with the next one, and no semicolon is part of a comment or of a string. -/
def StatementsApart : List (CString × Separator) → Prop
  | [] => True
  | [_] => True
  | (first, sep) :: (second, sep') :: rest =>
    ¬Absorbs (yylex first.bytes) (yylex second.bytes) ∧
      (sep = .semicolon → modeAfter first.bytes = .code) ∧ StatementsApart ((second, sep') :: rest)

end NervesInitramfs
