import Cashpack.Prog.Basic
import Cashpack.Prog.Keeps
import Cashpack.Prog.NoFail
import Cashpack.Prog.Relate
import Cashpack.Prog.Reads
import Cashpack.Octets.Basic
import Cashpack.Fifo.Basic
import Cashpack.Codec.Types
import Cashpack.Codec.Static
import Cashpack.Codec.Int
import Cashpack.Codec.Val
import Cashpack.Table.Ops
import Cashpack.Huffman.Tables
import Cashpack.Codec.Dec
import Cashpack.Huffman.Code
import Cashpack.Codec.Entry
import Cashpack.Codec.Decode
import Cashpack.Codec.Enc
import Cashpack.Search.Bisect
import Cashpack.Search.Static
import Cashpack.Search.Dynamic
import Cashpack.Search.Probe
import Cashpack.Codec.Alloc
import Cashpack.Codec.Reads
import Cashpack.Codec.Frame
import Cashpack.Codec.Alike
import Cashpack.Decoder.Alike
import Cashpack.Encoder.Alike
import Cashpack.Table.Refine
import Cashpack.Decoder.Runs
import Cashpack.Decoder.Update
import Cashpack.Decoder.Memory
import Cashpack.Decoder.Int
import Cashpack.Decoder.Blind
import Cashpack.Decoder.Progress
import Cashpack.Decoder.Idle
import Cashpack.Decoder.Failure
import Cashpack.Decoder.Blank
import Cashpack.Decoder.Block
import Cashpack.Decoder.Order
import Cashpack.Decoder.Write
import Cashpack.Decoder.Strings
import Cashpack.Encoder.Runs
import Cashpack.Encoder.Frame
import Cashpack.Encoder.Memory
import Cashpack.Encoder.Failure
import Cashpack.Octets.Bits
import Cashpack.Huffman.Prefix
import Cashpack.Huffman.Walk
import Cashpack.Codec.Self
import Cashpack.Table.Resync
import Cashpack.Encoder.Clean
import Cashpack.Octets.Integer
import Cashpack.Decoder.Exact
import Cashpack.Huffman.Encode
import Cashpack.Encoder.Emit
import Cashpack.Encoder.Length
import Cashpack.Decoder.Output
import Cashpack.Decoder.Address
import Cashpack.Decoder.Events
import Cashpack.Decoder.Grammar
import Cashpack.Decoder.Overflow
import Cashpack.Octets.Access
import Cashpack.Table.Alias
import Cashpack.Encoder.Borrow
import Cashpack.Encoder.Sending
import Cashpack.Encoder.Secret
import Cashpack.Decoder.Room
import Cashpack.Huffman.Decode
import Cashpack.Wire.Decode
import Cashpack.Wire.Fields
import Cashpack.Wire.Session
