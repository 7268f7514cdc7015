/-!
# JSON objects of scalars

The written form of an object whose values are texts and natural numbers. Text is written
so that no quote, backslash or control character stands in it as itself.
-/

namespace Backlog.Json

inductive Scalar where
  | text (s : String)
  | number (n : Nat)
  deriving DecidableEq, Repr

def hexDigit (n : Nat) : Char :=
  if n < 10 then Char.ofNat ('0'.toNat + n) else Char.ofNat ('a'.toNat + (n - 10))

/-- One character inside quotes. -/
def escape (c : Char) : List Char :=
  if c = '"' then ['\\', '"']
  else if c = '\\' then ['\\', '\\']
  else if c = '\n' then ['\\', 'n']
  else if c = '\r' then ['\\', 'r']
  else if c = '\t' then ['\\', 't']
  else if c.toNat < 0x20 then
    ['\\', 'u', '0', '0', hexDigit (c.toNat / 16), hexDigit (c.toNat % 16)]
  else [c]

def escaped (s : List Char) : List Char := s.flatMap escape

def quoted (s : String) : List Char := '"' :: escaped s.toList ++ ['"']

def Scalar.written : Scalar → List Char
  | .text s => quoted s
  | .number n => Nat.toDigits 10 n

def member (m : String × Scalar) : List Char := quoted m.1 ++ ':' :: m.2.written

def members : List (String × Scalar) → List Char
  | [] => []
  | [m] => member m
  | m :: n :: rest => member m ++ ',' :: members (n :: rest)

/-- The members in their order, without blanks. -/
def object (ms : List (String × Scalar)) : List Char := '{' :: members ms ++ ['}']

@[simp] theorem escaped_nil : escaped [] = [] := rfl

@[simp] theorem escaped_cons (c : Char) (s : List Char) :
    escaped (c :: s) = escape c ++ escaped s := by simp [escaped]

end Backlog.Json
