import Cinder.Text.Source

/-!
# Tokens

The words, marks and layout tokens that a program text is made of.
-/

namespace Cinder

inductive Keyword where
  | fn
  | var
  | when
  | otherwise
  | cast
  | ret
deriving DecidableEq, Repr

namespace Keyword

def all : List Keyword :=
  [.fn, .var, .when, .otherwise, .cast, .ret]

def text : Keyword → String
  | .fn => "fun"
  | .var => "var"
  | .when => "if"
  | .otherwise => "else"
  | .cast => "as"
  | .ret => "return"

def ofText? (text : String) : Option Keyword :=
  all.find? fun keyword => keyword.text == text

end Keyword

inductive TokenKind where
  | keyword (keyword : Keyword)
  | identifier
  | type
  | boolean
  | integer
  | float
  | openParen
  | closeParen
  | comma
  | colon
  | star
  | slash
  | plus
  | minus
  | less
  | greater
  | equals
  /-- End of a logical line. -/
  | newline
  /-- A line that is further in than the one before. -/
  | indent
  /-- The end of an indented block. -/
  | dedent
  | endOfFile
deriving DecidableEq, Repr

structure Token where
  kind : TokenKind
  text : String
  span : Span
deriving DecidableEq, Repr

namespace Token

def describe (token : Token) : String :=
  match token.kind with
  | .newline => "end of line"
  | .indent => "indentation"
  | .dedent => "end of block"
  | .endOfFile => "end of file"
  | _ => s!"`{token.text}`"

end Token

end Cinder
