import Mikelibc.Base64.Canonical
import Mikelibc.Base64.Code
import Mikelibc.Base64.Encoders
import Mikelibc.Base64.Grammar
import Mikelibc.Base64.Loops
import Mikelibc.Base64.Openssl
import Mikelibc.Base64.Pieces
import Mikelibc.Base64.Reference
import Mikelibc.Base64.RoundTrip
import Mikelibc.Base64.Sizes
import Mikelibc.Bins.Listing
import Mikelibc.Bins.Path
import Mikelibc.Btree.Traversal
import Mikelibc.Crypt.Account
import Mikelibc.Crypt.Code
import Mikelibc.Crypt.Sizes
import Mikelibc.Crypt.Strings
import Mikelibc.Debug.Lines
import Mikelibc.Digest.Code
import Mikelibc.Fib.History
import Mikelibc.Follow.Buffers
import Mikelibc.Follow.Code
import Mikelibc.Follow.Ends
import Mikelibc.Follow.Target
import Mikelibc.Hex.Digits
import Mikelibc.Lib.Agree
import Mikelibc.Lib.Chain
import Mikelibc.Lib.Control
import Mikelibc.Lib.Descriptors
import Mikelibc.Lib.Digits
import Mikelibc.Lib.Handles
import Mikelibc.Lib.Heap
import Mikelibc.Lib.Linear
import Mikelibc.Lib.Memory
import Mikelibc.Lib.Monitor
import Mikelibc.Lib.Parts
import Mikelibc.Lib.Pieces
import Mikelibc.Lib.Programs
import Mikelibc.Lib.Trees
import Mikelibc.Lib.Walk
import Mikelibc.Linked.Code
import Mikelibc.Linked.Filter
import Mikelibc.Linked.Macros
import Mikelibc.Linked.Runs
import Mikelibc.Log.Abort
import Mikelibc.Log.Alone
import Mikelibc.Log.Bookkeeping
import Mikelibc.Log.Code
import Mikelibc.Log.Contract
import Mikelibc.Log.Default
import Mikelibc.Log.Delivery
import Mikelibc.Log.Lines
import Mikelibc.Log.Map
import Mikelibc.Log.Progress
import Mikelibc.Log.Registry
import Mikelibc.Log.Steps
import Mikelibc.Log.Streams
import Mikelibc.Log.Threads
import Mikelibc.Mb64.Code
import Mikelibc.Mb64.Reads
import Mikelibc.Net.Account
import Mikelibc.Net.Atomic
import Mikelibc.Net.Code
import Mikelibc.Net.Fallback
import Mikelibc.Popen.Atomic
import Mikelibc.Popen.Code
import Mikelibc.Popen.EndOfFile
import Mikelibc.Popen.Wiring
import Mikelibc.Queue.Alloc
import Mikelibc.Queue.Code
import Mikelibc.Queue.Fifo
import Mikelibc.Queue.Linear
import Mikelibc.Queue.Order
import Mikelibc.Queue.Programs
import Mikelibc.Queue.Sequential
import Mikelibc.Queue.Slack
import Mikelibc.Queue.Threads
import Mikelibc.Queue.Vacuum
import Mikelibc.Sha1.Main
import Mikelibc.Split.Array
import Mikelibc.Split.Buffers
import Mikelibc.Split.Code
import Mikelibc.Split.Freed
import Mikelibc.Split.Join
import Mikelibc.Split.Loop
import Mikelibc.Split.OnHeap
import Mikelibc.Split.Words
import Mikelibc.Uri.Counted
import Mikelibc.Uri.Strings
