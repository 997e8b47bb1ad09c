import JavaStudy.Lib.Machine
import JavaStudy.Lib.FixedPool
import JavaStudy.FileSize.Sequential
import JavaStudy.FileSize.Forkjoin
import JavaStudy.FileSize.Concurrent
import JavaStudy.FileSize.WLatch
import JavaStudy.FileSize.WLatchEnd
import JavaStudy.FileSize.WQueue
import JavaStudy.FileSize.WQueueEnd
import JavaStudy.FileSize.Native
import JavaStudy.FileSize.NativeEnd
import JavaStudy.FileSize.NativeReturns
import JavaStudy.FileSize.NativeStarves
import JavaStudy.Lib.Hashtable
import JavaStudy.Lib.Lease
import JavaStudy.Bio.SocketPool
import JavaStudy.Lib.JavaText
import JavaStudy.Bio.SocketData
import JavaStudy.Lib.LineReader
import JavaStudy.Lib.ByteBuffer
import JavaStudy.Bio.Exchange
import JavaStudy.Bio.ExchangeEnd
import JavaStudy.Nio.WorkerPool
import JavaStudy.Nio.ChannelCopy
import JavaStudy.Bio.ServerThreadPool
import JavaStudy.Bio.Server
import JavaStudy.Bio.ServerRun
import JavaStudy.Lib.Utf8
import JavaStudy.Nio.ServerThread
import JavaStudy.Lib.JavaString
import JavaStudy.Io.CompareDBScript
import JavaStudy.Io.Comparison
import JavaStudy.Io.Differences
import JavaStudy.Io.Recognised
import JavaStudy.Nio.SelectSockets
import JavaStudy.Nio.SelectSocketsServed
import JavaStudy.Activemq.JmsCorrelationIDTest
import JavaStudy.Activemq.RequestReplyExample
import JavaStudy.Lib.BigEndian
import JavaStudy.Nio.TimeServer
import JavaStudy.Nio.TimeClient
import JavaStudy.Nio.LockTest
import JavaStudy.Nio.LockTestSections
import JavaStudy.Lib.Crc32
import JavaStudy.Nio.NIOTest
import JavaStudy.Bio.SocketPoolInit
import JavaStudy.Nio.ChannelData
import JavaStudy.Io.LoveCharset
import JavaStudy.Lib.Synchronized
import JavaStudy.Activemq.DealAction
import JavaStudy.Thread.CountDownLatchTest
import JavaStudy.Nio.PipeTest
import JavaStudy.Nio.ChannelTransfer
import JavaStudy.Lib.DataStream
import JavaStudy.Io.LoveInputStream
import JavaStudy.Lib.RandomAccessFile
import JavaStudy.Io.LoveRandomAccessFile
import JavaStudy.Lib.RunLength
import JavaStudy.Nio.MapFile
import JavaStudy.Nio.MapFileModes
import JavaStudy.Lib.Ascii
import JavaStudy.Nio.MappedHttp
import JavaStudy.Thread.CyclicBarrierTest
import JavaStudy.Lib.Progress
import JavaStudy.Lib.Refinement
import JavaStudy.Lib.Responder
import JavaStudy.Lib.SparseFile
import JavaStudy.Lib.MappedFile
import JavaStudy.Nio.FileHole
import JavaStudy.Thread.MonitorVehicleTracker
import JavaStudy.Thread.ThreadPoolExecutorTest
import JavaStudy.Lib.Datagrams
import JavaStudy.Nio.TimeNetwork
