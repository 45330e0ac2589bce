import LlvmTms9900.Arith.BinaryGrid
import LlvmTms9900.Arith.BlockList
import LlvmTms9900.Arith.CodeTree
import LlvmTms9900.Arith.CopyAlong
import LlvmTms9900.Arith.DigitSqrt
import LlvmTms9900.Arith.ForLoop
import LlvmTms9900.Arith.NearestEven
import LlvmTms9900.Arith.NewtonReciprocal
import LlvmTms9900.Arith.PrefixCost
import LlvmTms9900.Arith.RestoringDivision
import LlvmTms9900.Arith.SameSide
import LlvmTms9900.Arith.ShiftRegister
import LlvmTms9900.Arith.SinCos
import LlvmTms9900.Arith.ThreeWay
import LlvmTms9900.Benchmarks.Crc32
import LlvmTms9900.Benchmarks.JsonItems
import LlvmTms9900.Benchmarks.JsonLookup
import LlvmTms9900.Benchmarks.JsonParse
import LlvmTms9900.Benchmarks.JsonTokens
import LlvmTms9900.Builtins.ByteCopy
import LlvmTms9900.Builtins.CallingConvention
import LlvmTms9900.Builtins.CompareReading
import LlvmTms9900.Builtins.Div32
import LlvmTms9900.Builtins.Div32Calls
import LlvmTms9900.Builtins.Div32Paths
import LlvmTms9900.Builtins.Div32Signed
import LlvmTms9900.Builtins.Div32Value
import LlvmTms9900.Builtins.Divdi3
import LlvmTms9900.Builtins.ForwardCopy
import LlvmTms9900.Builtins.Fp32
import LlvmTms9900.Builtins.Malloc
import LlvmTms9900.Builtins.Memcpy
import LlvmTms9900.Builtins.Memmove
import LlvmTms9900.Builtins.MemmoveAligned
import LlvmTms9900.Builtins.MemmoveValue
import LlvmTms9900.Builtins.Memset
import LlvmTms9900.Builtins.Mul32
import LlvmTms9900.Builtins.Mul32Three
import LlvmTms9900.Builtins.Muldi3
import LlvmTms9900.Builtins.Shift32
import LlvmTms9900.Builtins.Shift64
import LlvmTms9900.Builtins.ShiftPieces
import LlvmTms9900.Builtins.ShiftRoutine
import LlvmTms9900.Builtins.StringUtils
import LlvmTms9900.Builtins.Udivmoddi4
import LlvmTms9900.Builtins.Udivmoddi4Value
import LlvmTms9900.Builtins.Udivmoddi4Words
import LlvmTms9900.Cart.Ball2
import LlvmTms9900.Cart.Crt0
import LlvmTms9900.FreeRTOS.QueueDemo
import LlvmTms9900.FreeRTOS.QueueProgress
import LlvmTms9900.FreeRTOS.Startup
import LlvmTms9900.Heap4.FreeList
import LlvmTms9900.Heap4.Model
import LlvmTms9900.Heap4.RequestSize
import LlvmTms9900.Heap4.Run
import LlvmTms9900.Huffman.BuildTree
import LlvmTms9900.Huffman.Codes
import LlvmTms9900.Huffman.FreqTable
import LlvmTms9900.Huffman.LeastTwo
import LlvmTms9900.Huffman.Model
import LlvmTms9900.Huffman.Optimal
import LlvmTms9900.Huffman.RoundTrip
import LlvmTms9900.Huffman.Stream
import LlvmTms9900.Isa.Activation
import LlvmTms9900.Isa.Machine
import LlvmTms9900.Isa.Run
import LlvmTms9900.Isa.Word
import LlvmTms9900.Isa.Workspace
import LlvmTms9900.Libm.Sincosf
import LlvmTms9900.Libm.SincosfError
import LlvmTms9900.Libm.SincosfLaws
import LlvmTms9900.Life.Board
import LlvmTms9900.Life.Conway
import LlvmTms9900.Life.Display2x
import LlvmTms9900.Life.Engine2x
import LlvmTms9900.Life.Main2x
import LlvmTms9900.Life.Overlay2x
import LlvmTms9900.Life.Region
import LlvmTms9900.Life.RegionRun
import LlvmTms9900.Life.RegionWindow
import LlvmTms9900.Life.Seed2x
import LlvmTms9900.Life.Tiles
import LlvmTms9900.Life.Vdp
import LlvmTms9900.Runtime.DivisionCalls
import LlvmTms9900.Runtime.DivisionLoop
import LlvmTms9900.Runtime.DivisionPieces
import LlvmTms9900.Runtime.DivisionSigned
import LlvmTms9900.Runtime.LegacyDivision
import LlvmTms9900.Runtime.Text
import LlvmTms9900.Softfloat.Add
import LlvmTms9900.Softfloat.Compare
import LlvmTms9900.Softfloat.Divide
import LlvmTms9900.Softfloat.Error
import LlvmTms9900.Softfloat.Format
import LlvmTms9900.Softfloat.Half
import LlvmTms9900.Softfloat.IntConversion
import LlvmTms9900.Softfloat.Laws
import LlvmTms9900.Softfloat.Multiply
import LlvmTms9900.Softfloat.Sum
