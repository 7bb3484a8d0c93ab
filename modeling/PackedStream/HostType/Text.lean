import PackedStream.HostType
import PackedStream.FloatFormat.Shortest

namespace PackedStream

open Text
open FloatFormat (binary32 binary64)

def HostType.text : (t : HostType) → t.Value → String
  | u8, v | u16, v | u32, v | u64, v => String.ofList (natChars (BitVec.toNat v))
  | i8, v | i16, v | i32, v | i64, v => String.ofList (intChars (BitVec.toInt v))
  | f32, v => binary32.text v
  | f64, v => binary64.text v

def HostValues.text (vs : HostValues) : String :=
  String.intercalate " " (vs.values.map vs.type.text)

end PackedStream
