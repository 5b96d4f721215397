import EntityJson.Options.Basic
import EntityJson.Serializer.Error
import EntityJson.Text.Base64

/-!
# Values with a form of their own

Scalars, and members of enumerations that stand for one, have a JSON form without any converter:
bytes are written in base 64, identifiers, dates, times and decimals as text. Nested, deferred and
foreign values have none.
-/

namespace EntityJson

variable {ι : Type}

/-- The JSON form of a scalar under options. A number that is not finite has none, and a format may
be invalid. -/
def Options.convertScalar (o : Options ι) : Scalar → Except SerializeError Json
  | .null => .ok .null
  | .bool b => .ok (.bool b)
  | .int n => .ok (.int n.toInt)
  | .uint n => .ok (.int n.toNat)
  | .float x => if x.isFinite then .ok (.float x) else .error (.unserializable "f64 (non-finite)")
  | .str s => .ok (.str s)
  | .bytes bs => .ok (.str (Base64.encode bs))
  | .uuid id => .ok (.str id.text)
  | .time t => written .time o.formats.timeFormat t.format?
  | .zonedDateTime x => written .dateTime o.formats.dateTimeFormat (x.format? · o.timeZone)
  | .dateTime x => written .dateTime o.formats.dateTimeFormat (x.format? · o.timeZone)
  | .date d => written .date o.formats.dateFormat d.format?
  | .decimal x => written .decimal o.formats.decimalFormat x.format?
where
  /-- The text in a format, or that the format is invalid. -/
  written (kind : FormatKind) (format : String) (write : String → Option String) :
      Except SerializeError Json :=
    match write format with
    | some text => .ok (.str text)
    | none => .error (.invalidFormat kind format)

/-- The JSON form of a value that has one of its own. -/
def Options.convertBuiltin? (o : Options ι) : Value ι → Option (Except SerializeError Json)
  | .scalar s => some (o.convertScalar s)
  | .member _ _ value => o.convertBuiltin? value
  | _ => none

/-- Of the options only the formats and the time zone have a part in the form of a value. -/
theorem Options.convertBuiltin?_congr {o o' : Options ι} (formats : o.formats = o'.formats)
    (timeZone : o.timeZone = o'.timeZone) :
    (v : Value ι) → o.convertBuiltin? v = o'.convertBuiltin? v
  | .scalar s => by
    obtain ⟨_, _, zone, f⟩ := o
    obtain ⟨_, _, zone', f'⟩ := o'
    obtain rfl : f = f' := formats
    obtain rfl : zone = zone' := timeZone
    cases s <;> rfl
  | .member _ _ v => convertBuiltin?_congr formats timeZone v
  | .map _ | .seq _ | .entity _ | .deferred _ _ | .foreign _ _ => rfl

end EntityJson
