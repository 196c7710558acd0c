import Collectives.Text.Printable

/-!
# Quoted text for messages

A text as a message shows it: in quotes, with everything escaped that has no picture of its own.
-/

namespace Collectives.Text

def numbered (c : Char) : List Char :=
  ['\\', 'u', '\x7b'] ++ Nat.toDigits 16 c.toNat ++ ['\x7d']

def shown (c : Char) : List Char :=
  if c = '"' then ['\\', '"']
  else if c = '\\' then ['\\', '\\']
  else if c = '\x00' then ['\\', '0']
  else if c = '\t' then ['\\', 't']
  else if c = '\r' then ['\\', 'r']
  else if c = '\n' then ['\\', 'n']
  else if isExtending c ∨ !isPrintable c then numbered c
  else [c]

def quoted (s : String) : String := .ofList ('"' :: s.toList.flatMap shown ++ ['"'])

end Collectives.Text
