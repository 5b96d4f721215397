import EntityJson.Number.Binary64
import EntityJson.Number.Numeral

/-!
# Reading floating-point numbers

A number is read from a numeral and rounded once. Infinity and what is no number are read from their
names.
-/

namespace EntityJson.Binary64

/-- Reads a number, rounded to a format. -/
def read? (f : BinaryFormat) (s : String) : Option Binary64 :=
  match s with
  | "nan" => some nan
  | "inf" => some (infinite false)
  | "-inf" => some (infinite true)
  | s => (Numeral.read? s).map fun n => ofDecimal f n.negative n.coefficient n.lastExponent

end EntityJson.Binary64
