import PackedStream.Main
import PackedStream.Command.Directory
import PackedStream.PartRing.Shared
import PackedStream.Tensor.Pack
import PackedStream.Tensor.Unpack
import PackedStream.Tensor.View
import PackedStream.Unpack.Checked
import PackedStream.Proofs.BitBuffer
import PackedStream.Proofs.BitBuffer.Calls
import PackedStream.Proofs.Blocks
import PackedStream.Proofs.Field
import PackedStream.Proofs.Pack
import PackedStream.Proofs.Shape
import PackedStream.Proofs.Shape.RowMajor
import PackedStream.Proofs.Unpack
import PackedStream.Proofs.Integers
import PackedStream.Proofs.RoundTrip
import PackedStream.Proofs.Tensor
import PackedStream.Proofs.Tensor.MergeTree
import PackedStream.Proofs.Tensor.Pack
import PackedStream.Proofs.Tensor.View
import PackedStream.Proofs.PartQueue
import PackedStream.Proofs.PartRing
import PackedStream.Proofs.PartRing.Calls
import PackedStream.Proofs.PartRing.Shared
import PackedStream.Proofs.PartRing.Signals
import PackedStream.Proofs.PartRing.Pair
import PackedStream.Proofs.FloatFormat
import PackedStream.Proofs.FloatFormat.Nearest
import PackedStream.Proofs.FloatFormat.Exact
import PackedStream.Proofs.FloatFormat.Integers
import PackedStream.Proofs.Scalar
import PackedStream.Proofs.Native
import PackedStream.Proofs.Fixed
import PackedStream.Proofs.Represented
import PackedStream.Proofs.Represented.Integers
import PackedStream.Proofs.Command.Directory
import PackedStream.Proofs.Text.Hex
import PackedStream.Proofs.Text.Numeral
import PackedStream.Proofs.Command.RoundTrip
import PackedStream.Proofs.Command.Strict
import PackedStream.BitBuffer.Window
import PackedStream.Proofs.BitBuffer.Window
import PackedStream.Proofs.BitBuffer.Workers
import PackedStream.Proofs.Fixed.Integers
import PackedStream.Proofs.Quantization
import PackedStream.Proofs.FloatFormat.Convert
import PackedStream.Proofs.Float32
import PackedStream.Proofs.Numbers
import PackedStream.Proofs.Command.Complete
import PackedStream.Proofs.Unpack.Answers
import PackedStream.Proofs.Unpack.Checked
import PackedStream.Proofs.FieldFormat.Text
import PackedStream.Text.HexBytes
import PackedStream.Proofs.Text.HexBytes
import PackedStream.Proofs.Shape.Check
import PackedStream.Command.Session
import PackedStream.Proofs.Command.Session
import PackedStream.Proofs.BitBuffer.Fields
import PackedStream.Proofs.Pack.Checked
import PackedStream.Proofs.Sequential
import PackedStream.Pack.Checked
