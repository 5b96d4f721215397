/-!
# Base64

Three bytes are written as four characters of six bits each; one or two bytes at the end give two or
three characters and are filled up with the padding character.
-/

namespace EntityJson.Base64

/-- The character for a value below 64. -/
def digit (n : Nat) : Char :=
  if n < 26 then Char.ofNat (65 + n)
  else if n < 52 then Char.ofNat (97 + (n - 26))
  else if n < 62 then Char.ofNat (48 + (n - 52))
  else if n = 62 then '+' else '/'

/-- The four digits of a number of 24 bits. -/
def digits (n : Nat) : List Char :=
  [digit (n / (64 * 64 * 64)), digit (n / (64 * 64) % 64), digit (n / 64 % 64), digit (n % 64)]

def encodeChars : List UInt8 → List Char
  | [] => []
  | [a] => (digits (a.toNat * (256 * 256))).take 2 ++ ['=', '=']
  | [a, b] => (digits (a.toNat * (256 * 256) + b.toNat * 256)).take 3 ++ ['=']
  | a :: b :: c :: rest =>
    digits (a.toNat * (256 * 256) + b.toNat * 256 + c.toNat) ++ encodeChars rest

def encode (bytes : List UInt8) : String :=
  String.ofList (encodeChars bytes)

end EntityJson.Base64
