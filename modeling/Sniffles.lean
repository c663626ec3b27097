import Sniffles.Foundations.MachineIntegers
import Sniffles.Foundations.BitSequences
import Sniffles.Foundations.WhileLoops
import Sniffles.BitRead
import Sniffles.BitCursor
import Sniffles.CursorRefinement
import Sniffles.ReaderRuns
import Sniffles.OverflowReporting
import Sniffles.BitCounts
import Sniffles.SeekEquivalence
import Sniffles.ReachedReaders
import Sniffles.SplitReads
import Sniffles.BitLimit
import Sniffles.SingleBitReads
import Sniffles.Foundations.Base128
import Sniffles.Foundations.ZigZag
import Sniffles.VarintReads
import Sniffles.UBitVarReads
import Sniffles.StringReads
import Sniffles.Foundations.SubstringSearch
import Sniffles.StringFind
import Sniffles.BulkReads
import Sniffles.Foundations.FeistelNetwork
import Sniffles.IceCipher
import Sniffles.IceInverse
import Sniffles.ScheduleWords
import Sniffles.IceSchedule
import Sniffles.ScheduleCoverage
import Sniffles.ScheduleInjectivity
import Sniffles.IceLevels
import Sniffles.Foundations.BinaryPolynomials
import Sniffles.Foundations.BitPermutations
import Sniffles.GaloisField
import Sniffles.SubstitutionLayer
import Sniffles.CaptureCallback
import Sniffles.Foundations.BlockMode
import Sniffles.DatagramUnwrapping
import Sniffles.ByteCursor
import Sniffles.MessageFraming
import Sniffles.MessageRoundTrip
import Sniffles.PacketBounds
import Sniffles.PacketProgress
import Sniffles.PacketCursor
import Sniffles.ConfigRuns
import Sniffles.ConfigEdits
import Sniffles.ConfigBounds
import Sniffles.Foundations.BackReferences
import Sniffles.Foundations.FlaggedGroups
import Sniffles.Foundations.LinkedChains
import Sniffles.Foundations.LatestMaxima
import Sniffles.LzssBounds
import Sniffles.GreedyParse
import Sniffles.LzssEncoding
import Sniffles.LzssRoundTrip
import Sniffles.LzssShrinks
import Sniffles.EncoderTurns
import Sniffles.ChainWalks
import Sniffles.ReferenceFields
import Sniffles.Foundations.TaggedRecords
import Sniffles.Foundations.RecordLayouts
import Sniffles.CodedInput
import Sniffles.CodedInputRefinement
import Sniffles.MessageParsing
import Sniffles.ParseRefinement
import Sniffles.ParsedMessages
import Sniffles.MessageSerialization
import Sniffles.SerializedNumbers
import Sniffles.SerializedMessages
import Sniffles.PacketDispatch
import Sniffles.PacketCalls
import Sniffles.Foundations.BitFormats
import Sniffles.CoordinateReads
import Sniffles.FieldFormats
import Sniffles.FieldStreams
import Sniffles.Foundations.HeapBlocks
import Sniffles.CaptureRuns
import Sniffles.LzssInputs
