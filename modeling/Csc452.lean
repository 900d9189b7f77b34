import Csc452.DemandPaging
import Csc452.PageTable
import Csc452.Replacement
import Csc452.Residency
import Csc452.FrameArray
import Csc452.Farthest
import Csc452.ReplacementResults
import Csc452.Fields
import Csc452.TraceFile
import Csc452.Vmsim
import Csc452.VmsimReports
import Csc452.Evictions
import Csc452.Phases
import Csc452.Competitive
import Csc452.LinkedList
import Csc452.Bytes
import Csc452.Mailbox
import Csc452.MailboxList
import Csc452.MailboxDelivery
import Csc452.MailboxCopies
import Csc452.Runs
import Csc452.Semaphore
import Csc452.SemaphoreResults
import Csc452.SemaphoreLock
import Csc452.Simulation
import Csc452.Services
import Csc452.Osmsg
import Csc452.OsmsgDelivery
import Csc452.SemaphoreSleepers
import Csc452.Interference
import Csc452.ByteFile
import Csc452.FileSystem
import Csc452.DiskLayout
import Csc452.DiskUpdates
import Csc452.View
import Csc452.DiskEffects
import Csc452.Tables
import Csc452.Commits
import Csc452.Requests
import Csc452.Confinement
import Csc452.RequestRules
import Csc452.Walking
import Csc452.Specification
import Csc452.WriteRequest
import Csc452.Alone
import Csc452.Snapshot
import Csc452.DiskRuns
import Csc452.Consistency
import Csc452.Crashes
import Csc452.Containment
import Csc452.FailedWrites
import Csc452.MakeRequests
import Csc452.RingBuffer
import Csc452.CarQueue
import Csc452.CarQueueRuns
import Csc452.Prodcons
import Csc452.ProdconsBalance
import Csc452.ProdconsResults
import Csc452.ProdconsHistory
import Csc452.Trafficsim
import Csc452.TrafficAccounts
import Csc452.TrafficSite
import Csc452.TrafficGridlock
import Csc452.TrafficKernel
import Csc452.Paths
import Csc452.Listing
import Csc452.Creation
import Csc452.ReadRequest
import Csc452.Appending
import Csc452.Splices
import Csc452.Slices
import Csc452.Concurrency
import Csc452.FileService
import Csc452.StoreQueries
import Csc452.StoreRefinement
import Csc452.EvenSteps
import Csc452.Graphics
import Csc452.Lines
import Csc452.LinePixels
import Csc452.Clipping
import Csc452.SpaceFilling
import Csc452.Hilbert
import Csc452.HilbertCurve
import Csc452.Programs
import Csc452.ProgramScreens
