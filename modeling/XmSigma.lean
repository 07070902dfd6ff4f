import XmSigma.Lib.Word64
import XmSigma.Lib.CatchUp
import XmSigma.Lib.Machine
import XmSigma.Lib.Serial
import XmSigma.Lib.Progress
import XmSigma.Lib.Worker
import XmSigma.Lib.HappensBefore
import XmSigma.Lib.Refinement
import XmSigma.Lib.Monitor
import XmSigma.Lib.BoundedQueue
import XmSigma.Lib.Past
import XmSigma.Lib.Rows
import XmSigma.Lib.Decimal
import XmSigma.Lib.FixedWidth
import XmSigma.Lib.Numeral
import XmSigma.Lib.BitString
import XmSigma.Lib.Crc
import XmSigma.Lib.ShiftRegister
import XmSigma.Lib.Collisions
import XmSigma.Lib.Packing
import XmSigma.Logging.Record
import XmSigma.Logging.FormatInto
import XmSigma.Logging.LogLevelEnv
import XmSigma.Logging.LogFileName
import XmSigma.Logging.RingCapacity
import XmSigma.Logging.RtLogger
import XmSigma.Logging.RtLoggerInvariant
import XmSigma.Logging.RtLoggerDelivery
import XmSigma.Logging.RtLoggerFlush
import XmSigma.Logging.RtLoggerProgress
import XmSigma.Logging.MpscRtLogger
import XmSigma.Logging.MpscInvariant
import XmSigma.Logging.MpscSteps
import XmSigma.Logging.MpscLedger
import XmSigma.Logging.MpscSolo
import XmSigma.Logging.MpscDelivery
import XmSigma.Logging.MpscOwnership
import XmSigma.Logging.MpscShutdown
import XmSigma.Logging.MpscCapacity
import XmSigma.Logging.MpscRaceFree
import XmSigma.Logging.LogQueue
import XmSigma.Logging.LevelTest
import XmSigma.Logging.XLogger
import XmSigma.Logging.SharedQueue
import XmSigma.Logging.MpscFull
import XmSigma.Logging.MpscRefines
import XmSigma.Logging.MpscFlush
import XmSigma.Logging.MpscRace
import XmSigma.Logging.MpscRetries
import XmSigma.Logging.MpscRetryBound
import XmSigma.Logging.MpscProgress
import XmSigma.Logging.MpscDrainProgress
import XmSigma.Logging.RtLoggerSerial
import XmSigma.Logging.RtLoggerCapacity
import XmSigma.Logging.RtLoggerRaceFree
import XmSigma.Logging.RtLoggerRefines
import XmSigma.Logging.MpscSerial
import XmSigma.Logging.Interchangeable
import XmSigma.Logging.CtrlLogger
import XmSigma.Logging.CtrlLoggerTable
import XmSigma.Logging.CtrlLoggerRows
import XmSigma.Logging.CtrlLoggerBounds
import XmSigma.Logging.CtrlLoggerReadBack
import XmSigma.Logging.SpecializedLogger
import XmSigma.Logging.CsvLoggerReadBack
import XmSigma.Container.RingBuffer
import XmSigma.Container.RingBufferContents
import XmSigma.Container.RingBufferRuns
import XmSigma.Container.RingBufferObservers
import XmSigma.Container.RingBufferShared
import XmSigma.Container.RingBufferThrowing
import XmSigma.Container.RingBufferFailures
import XmSigma.Container.RingBufferMonitor
import XmSigma.Serialization.ByteOrder
import XmSigma.Serialization.Checksum
import XmSigma.Serialization.CrcRemainder
import XmSigma.Serialization.CrcErrors
import XmSigma.Serialization.WireFields
import XmSigma.Serialization.CrcCollisions
