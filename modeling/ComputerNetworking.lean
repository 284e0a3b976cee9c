import ComputerNetworking.Transition
import ComputerNetworking.RingLayout
import ComputerNetworking.BufferModel
import ComputerNetworking.BufferFifo
import ComputerNetworking.BufferRuns
import ComputerNetworking.BufferFree
import ComputerNetworking.GoBackNModel
import ComputerNetworking.GoBackNFile
import ComputerNetworking.LittleEndian
import ComputerNetworking.GoBackNStream
import ComputerNetworking.GoBackNSender
import ComputerNetworking.GoBackNSystem
import ComputerNetworking.GoBackNSafety
import ComputerNetworking.GoBackNWindow
import ComputerNetworking.GoBackNTimer
import ComputerNetworking.GoBackNSteps
import ComputerNetworking.GoBackNProgress
import ComputerNetworking.GoBackNCompletion
import ComputerNetworking.Chaining
import ComputerNetworking.HashTableModel
import ComputerNetworking.HashTableRefinement
import ComputerNetworking.HashTableLoad
import ComputerNetworking.MovieDatabase
import ComputerNetworking.NumeralScan
import ComputerNetworking.FilmRequests
import ComputerNetworking.FilmArray
import ComputerNetworking.FilmIds
import ComputerNetworking.Clockwise
import ComputerNetworking.Datagrams
import ComputerNetworking.ServerModel
import ComputerNetworking.ChordProtocol
import ComputerNetworking.ChordRing
import ComputerNetworking.ChordJoin
import ComputerNetworking.ChordConcurrent
import ComputerNetworking.ChordStartup
import ComputerNetworking.ChordQuiescence
import ComputerNetworking.ServerRequest
import ComputerNetworking.TcpServer
import ComputerNetworking.ServerMalformed
import ComputerNetworking.ServerRepeats
import ComputerNetworking.FilmClient
import ComputerNetworking.FilmRetries
import ComputerNetworking.FilmResponses
import ComputerNetworking.Strtok
import ComputerNetworking.FilmFile
import ComputerNetworking.MalteClient
import ComputerNetworking.UdpClient
import ComputerNetworking.ServerExchange
import ComputerNetworking.ServerSocket
import ComputerNetworking.ChordDuplicateIds
import ComputerNetworking.ServerStore
import ComputerNetworking.ServerRelay
import ComputerNetworking.ServerHandover
import ComputerNetworking.Selection
import ComputerNetworking.NtpClient
import ComputerNetworking.PatternScan
import ComputerNetworking.HttpHeader
import ComputerNetworking.HttpChunks
import ComputerNetworking.HttpItem
import ComputerNetworking.Broadcast
import ComputerNetworking.ArqWedge
import ComputerNetworking.QueueStatistics
import ComputerNetworking.FilmViews
