import ScriptCheck.Span

/-!
# Tokens

The words and symbols of a Piethon script. The logical operators have two
spellings each (`and`, `&&`) and are one token; the end of a text is no token
but the end of the list.
-/

namespace ScriptCheck

/-- A word or symbol. Names and numbers keep their spelling. -/
inductive Token where
  | defWord
  | isWord
  | endWord
  | varWord
  | returnWord
  | trueWord
  | falseWord
  | andOp
  | orOp
  | notOp
  | int32Word
  | boolWord
  | voidWord
  | name (spelling : String)
  | number (digits : String)
  | plus
  | minus
  | star
  | slash
  | percent
  | equal
  | notEqual
  | less
  | greater
  | lessEqual
  | greaterEqual
  | becomes
  | openParen
  | closeParen
  | semicolon
  | comma
  | colon
deriving DecidableEq, Inhabited

namespace Token

/-- The token of a word made of letters, digits and underscores: a reserved word
if there is one of that spelling, else a name. -/
def ofWord (word : String) : Token :=
  match word with
  | "def" => .defWord
  | "is" => .isWord
  | "end" => .endWord
  | "var" => .varWord
  | "return" => .returnWord
  | "true" => .trueWord
  | "false" => .falseWord
  | "and" => .andOp
  | "or" => .orOp
  | "not" => .notOp
  | "Int32" => .int32Word
  | "Bool" => .boolWord
  | "Void" => .voidWord
  | _ => .name word

/-- The token that two characters in a row make, if any. -/
def ofPair : Char → Char → Option Token
  | '&', '&' => some .andOp
  | '|', '|' => some .orOp
  | '=', '=' => some .equal
  | '!', '=' => some .notEqual
  | '<', '=' => some .lessEqual
  | '>', '=' => some .greaterEqual
  | ':', '=' => some .becomes
  | _, _ => none

/-- The token that one character makes on its own, if any. -/
def ofSingle : Char → Option Token
  | '+' => some .plus
  | '-' => some .minus
  | '*' => some .star
  | '/' => some .slash
  | '%' => some .percent
  | '<' => some .less
  | '>' => some .greater
  | '!' => some .notOp
  | '(' => some .openParen
  | ')' => some .closeParen
  | ';' => some .semicolon
  | ',' => some .comma
  | ':' => some .colon
  | _ => none

/-- How error messages call a token. -/
def describe : Token → String
  | .defWord => "'def'"
  | .isWord => "'is'"
  | .endWord => "'end'"
  | .varWord => "'var'"
  | .returnWord => "'return'"
  | .trueWord => "'true'"
  | .falseWord => "'false'"
  | .andOp => "'and'"
  | .orOp => "'or'"
  | .notOp => "'not'"
  | .int32Word => "'Int32'"
  | .boolWord => "'Bool'"
  | .voidWord => "'Void'"
  | .name spelling => s!"identifier '{spelling}'"
  | .number digits => s!"integer '{digits}'"
  | .plus => "'+'"
  | .minus => "'-'"
  | .star => "'*'"
  | .slash => "'/'"
  | .percent => "'%'"
  | .equal => "'=='"
  | .notEqual => "'!='"
  | .less => "'<'"
  | .greater => "'>'"
  | .lessEqual => "'<='"
  | .greaterEqual => "'>='"
  | .becomes => "':='"
  | .openParen => "'('"
  | .closeParen => "')'"
  | .semicolon => "';'"
  | .comma => "','"
  | .colon => "':'"

/-- The class of a token, as token listings name it. -/
def tag : Token → String
  | .defWord => "Def"
  | .isWord => "Is"
  | .endWord => "End"
  | .varWord => "Var"
  | .returnWord => "Return"
  | .trueWord => "True"
  | .falseWord => "False"
  | .andOp => "And"
  | .orOp => "Or"
  | .notOp => "Not"
  | .int32Word => "Int32"
  | .boolWord => "Bool"
  | .voidWord => "Void"
  | .name _ => "Identifier"
  | .number _ => "IntLiteral"
  | .plus => "Plus"
  | .minus => "Minus"
  | .star => "Star"
  | .slash => "Slash"
  | .percent => "Percent"
  | .equal => "EqEq"
  | .notEqual => "NotEq"
  | .less => "Lt"
  | .greater => "Gt"
  | .lessEqual => "LtEq"
  | .greaterEqual => "GtEq"
  | .becomes => "ColonEq"
  | .openParen => "LParen"
  | .closeParen => "RParen"
  | .semicolon => "Semi"
  | .comma => "Comma"
  | .colon => "Colon"

/-- The class of a token with the spelling it keeps, if it keeps one. -/
def listing (t : Token) : String :=
  match t with
  | .name spelling => s!"{t.tag}(\"{spelling}\")"
  | .number digits => s!"{t.tag}(\"{digits}\")"
  | _ => t.tag

end Token

/-- What error messages call the place where a token was looked for: the token
there, or the end of the text. -/
def Token.describe? : Option Token → String
  | some t => t.describe
  | none => "end of file"

/-- A token and where it stands. -/
structure Lexeme where
  token : Token
  span : Span
deriving DecidableEq, Inhabited

/-- The line of a token listing. -/
def Lexeme.listing (l : Lexeme) : String :=
  s!"Token \x7b kind: {l.token.listing}, span: {l.span.describe} \x7d"

end ScriptCheck
