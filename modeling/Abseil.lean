import Abseil.MutexPriority
import Abseil.MutexRun
import Abseil.SwissSize
import Abseil.SwissGrowth
import Abseil.SwissGrow
import Abseil.SwissRehash
import Abseil.TimeConversion
import Abseil.DurationText
import Abseil.FastIntToBufferSpec
import Abseil.Base64Escape
import Abseil.Int128
import Abseil.Crc32Zeroes
import Abseil.GraphIds
import Abseil.FormatParse
import Abseil.HexFloat
import Abseil.FormatSink
import Abseil.VLogConfig
import Abseil.UniformInt
import Abseil.PiecewiseHash
import Abseil.DemangleRustNames
import Abseil.LogProtoRoundTrip
import Abseil.InlinedVectorRun
import Abseil.LowLevelAllocRun
import Abseil.SimulatedClockReports
import Abseil.LinkedHashMove
import Abseil.Substitute
import Abseil.Discard
