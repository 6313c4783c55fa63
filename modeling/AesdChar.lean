import AesdChar.Base.CInt
import AesdChar.Base.Machine
import AesdChar.Base.BlockHeap
import AesdChar.Base.LinkedList
import AesdChar.Base.Cyclic
import AesdChar.Base.Lines
import AesdChar.Base.Pieces
import AesdChar.Base.CString
import AesdChar.Base.Mutex
import AesdChar.Base.Contiguous
import AesdChar.Base.Prog
import AesdChar.Base.Monitor
import AesdChar.Base.Slots
import AesdChar.Driver.CircularBuffer
import AesdChar.Driver.Device
import AesdChar.Driver.System
import AesdChar.Driver.Ring
import AesdChar.Driver.Fifo
import AesdChar.Driver.Ownership
import AesdChar.Driver.Write
import AesdChar.Driver.View
import AesdChar.Driver.Publishing
import AesdChar.Driver.Reading
import AesdChar.Driver.Following
import AesdChar.Driver.Seeking
import AesdChar.Driver.Failures
import AesdChar.Driver.Blocks
import AesdChar.Driver.Leaks
import AesdChar.Driver.Sizes
import AesdChar.Driver.Loading
import AesdChar.Driver.Accesses
import AesdChar.Driver.Atomicity
import AesdChar.Driver.Stream
import AesdChar.Server.Worker
import AesdChar.Server.System
import AesdChar.Server.Threads
import AesdChar.Server.Receiving
import AesdChar.Server.Actions
import AesdChar.Server.Loop
import AesdChar.Server.Resources
import AesdChar.Server.Isolation
import AesdChar.Server.Service
import AesdChar.Server.Replies
import AesdChar.Server.Progress
import AesdChar.Server.Segments
import AesdChar.Server.Forwarding
import AesdChar.Server.Dispatch
import AesdChar.Server.Handling
import AesdChar.Server.NodeList
import AesdChar.Server.Snapshot
import AesdChar.Server.Settling
import AesdChar.Nothread.Server
import AesdChar.Nothread.Answers
import AesdChar.Nothread.Descriptors
import AesdChar.Nothread.Accepting
import AesdChar.FileBuild.Disk
import AesdChar.FileBuild.System
import AesdChar.FileBuild.Threads
import AesdChar.FileBuild.Access
import AesdChar.FileBuild.Shutdown
import AesdChar.FileBuild.Clients
import AesdChar.FileBuild.Appending
import AesdChar.FileBuild.Packets
import AesdChar.FileBuild.Answers
import AesdChar.FileBuild.Agreement
import AesdChar.FileBuild.OneAtATime
