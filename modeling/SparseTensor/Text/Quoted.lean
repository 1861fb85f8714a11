/-
# Quoted text

The spelling of a text inside double quotes, as fault messages show it: quotes and backslashes
are escaped, the usual controls have one-letter escapes, and every other character that cannot
be shown is written by its code point.
-/
import SparseTensor.Text.Hexadecimal
import SparseTensor.Text.Printable

namespace SparseTensor.Text

/-- The spelling of one character inside double quotes. -/
def quotedChar (c : Char) : List Char :=
  if c = '\x00' then ['\\', '0']
  else if c = '\t' then ['\\', 't']
  else if c = '\r' then ['\\', 'r']
  else if c = '\n' then ['\\', 'n']
  else if c = '\\' then ['\\', '\\']
  else if c = '"' then ['\\', '"']
  else if isPrintable c then [c]
  else ['\\', 'u', '\x7b'] ++ Hexadecimal.digits c.toNat ++ ['\x7d']

/-- A text inside double quotes. -/
def quoted (s : List Char) : List Char :=
  '"' :: s.flatMap quotedChar ++ ['"']

end SparseTensor.Text
