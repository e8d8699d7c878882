import Cs241.Malloc.Realloc
import Cs241.Memcheck.Renewal
import Cs241.Memcheck.Sizes
import Cs241.Vector.Ownership
import Cs241.Vector.Requests
import Cs241.Drm.Cycles
import Cs241.Drm.Deadlock
import Cs241.Drm.Destroy
import Cs241.Drm.Progress
import Cs241.Parmake.Building
import Cs241.Parmake.Stopping
import Cs241.Parmake.Confinement
import Cs241.Parmake.Cycles
import Cs241.Parmake.Timestamps
import Cs241.Parser.Comments
import Cs241.Parser.Graphs
import Cs241.Paging.Lifetime
import Cs241.Paging.Permissions
import Cs241.Paging.Segfaults
import Cs241.Net.Store
import Cs241.Net.Replies
import Cs241.Net.Transfer
import Cs241.Net.Listing
import Cs241.Net.Uploads
import Cs241.Net.Outcomes
import Cs241.Net.Session
import Cs241.Critical.Queue
import Cs241.Critical.Semamore
import Cs241.Critical.Barrier
import Cs241.Scheduler.Averages
import Cs241.Scheduler.Shortest
import Cs241.Sockets.Failures
import Cs241.Chat.Messages
import Cs241.Chat.Room
import Cs241.Cracker.Pool
import Cs241.Cracker.Search
import Cs241.Cracker.Solution
import Cs241.Threads.Bounds
import Cs241.Threads.Folds
import Cs241.CamelCaser.Sentences
import Cs241.Minixfs.Contents
import Cs241.Minixfs.Info
import Cs241.Minixfs.Refusals
import Cs241.Minixfs.Volumes
import Cs241.Shell.History
import Cs241.Shell.Operators
import Cs241.Shell.Replay
import Cs241.Shell.Scripts
import Cs241.Sstring.Pieces
import Cs241.Sstring.Append
import Cs241.Utilities.Assignments
import Cs241.Mapreduce.Result
import Cs241.Foundation.Objects
