import DocWalk.Date.Standard
import DocWalk.Date.Epoch

/-!
# Values read from texts

The text of a node stands for a value of some kind. Each kind has one way to be read, and the reading
depends on nothing but the text.
-/

set_option autoImplicit false

namespace DocWalk

/-- What a text is to be read as. -/
inductive Kind where
  | string
  | byte
  | short
  | integer
  | long
  | float
  | double
  | bigDecimal
  | bigInteger
  | boolean
  | byteBuffer
  /-- A date in ISO 8601. -/
  | date
  /-- A date in seconds since the epoch. -/
  | epochTimestamp
  deriving DecidableEq, Repr, Inhabited

/-- A value read from a text. -/
inductive Primitive where
  | string (value : String)
  | byte (value : Int8)
  | short (value : Int16)
  | integer (value : Int32)
  | long (value : Int64)
  /-- The bits of a floating point number of 32 bits. -/
  | float (bits : UInt32)
  /-- The bits of a floating point number of 64 bits. -/
  | double (bits : UInt64)
  | bigDecimal (value : Decimal)
  | bigInteger (value : Int)
  | boolean (value : Bool)
  | byteBuffer (value : List UInt8)
  | date (value : Instant)
  deriving DecidableEq, Repr

namespace Kind

/-- Every kind. -/
def all : List Kind :=
  [string, byte, short, integer, long, float, double, bigDecimal, bigInteger, boolean, byteBuffer,
    date, epochTimestamp]

/-- The name of a kind. -/
def name : Kind → String
  | string => "string"
  | byte => "byte"
  | short => "short"
  | integer => "integer"
  | long => "long"
  | float => "float"
  | double => "double"
  | bigDecimal => "bigdecimal"
  | bigInteger => "biginteger"
  | boolean => "boolean"
  | byteBuffer => "bytebuffer"
  | date => "date"
  | epochTimestamp => "epoch-timestamp"

/-- The kind of that name. -/
def ofName? (name : String) : Option Kind :=
  all.find? (·.name = name)

/-- Reads an integer of so many bits. -/
def decodeInteger (bits : Nat) (text : String) : Except FormatError Int :=
  ((Bounds.signed bits).read text.toList).mapError (.integer text)

/-- Reads a floating point number as its bits. -/
def decodeFloat (format : BinaryFormat) (text : String) : Except FormatError Nat :=
  (format.read text).mapError (.float text)

/-- Reads a text. Only the word `true` is true, and every other text is false. -/
def decode (kind : Kind) (text : String) : Except FormatError Primitive :=
  match kind with
  | string => .ok (.string text)
  | byte => (decodeInteger 8 text).map fun n => .byte (.ofInt n)
  | short => (decodeInteger 16 text).map fun n => .short (.ofInt n)
  | integer => (decodeInteger 32 text).map fun n => .integer (.ofInt n)
  | long => (decodeInteger 64 text).map fun n => .long (.ofInt n)
  | float => (decodeFloat .single text).map fun bits => .float (.ofNat bits)
  | double => (decodeFloat .double text).map fun bits => .double (.ofNat bits)
  | bigDecimal => ((Decimal.read text).mapError (.decimal text)).map .bigDecimal
  | bigInteger => ((BigInteger.read text.toList).mapError (.bigInteger text)).map .bigInteger
  | boolean => .ok (.boolean (text = "true"))
  | byteBuffer => ((Base64.decode (Utf8.encode text)).mapError .base64).map .byteBuffer
  | date => (Iso8601.parse text).map .date
  | epochTimestamp => (EpochSeconds.parse text).map .date

/-- The notices of reading a text. -/
def notices (kind : Kind) (text : String) : List Notice :=
  match kind with
  | date => Iso8601.notices text
  | _ => []

end Kind

end DocWalk
