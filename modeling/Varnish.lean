import Varnish.Acl.Emit
import Varnish.Acl.Match
import Varnish.Acl.Model
import Varnish.Acl.Order
import Varnish.Ban.Argv
import Varnish.Ban.Count
import Varnish.Ban.Fetch
import Varnish.Ban.Model
import Varnish.Ban.Naive
import Varnish.Ban.Overlap
import Varnish.Ban.Refs
import Varnish.Ban.Reload
import Varnish.Ban.Test
import Varnish.Ban.Text
import Varnish.Ban.Vcl
import Varnish.Ban.Words
import Varnish.Binheap.Index
import Varnish.Binheap.Model
import Varnish.Binheap.Place
import Varnish.Binheap.Queue
import Varnish.Binheap.Runs
import Varnish.Binheap.Tree
import Varnish.Center.Close
import Varnish.Center.Model
import Varnish.Center.Owner
import Varnish.Cli.Auth
import Varnish.Cli.Reassemble
import Varnish.Cli.Response
import Varnish.Cli.Serve
import Varnish.Cli.Vlu
import Varnish.Esi.Agree
import Varnish.Esi.Complete
import Varnish.Esi.Contain
import Varnish.Esi.Deliver
import Varnish.Esi.Flush
import Varnish.Esi.Include
import Varnish.Esi.Lex
import Varnish.Esi.Model
import Varnish.Esi.Pointer
import Varnish.Esi.Result
import Varnish.Expire.Agree
import Varnish.Expire.Model
import Varnish.Expire.Overflow
import Varnish.Expire.Runs
import Varnish.File.Chunks
import Varnish.File.Cut
import Varnish.File.Enough
import Varnish.File.Model
import Varnish.File.Open
import Varnish.File.Ops
import Varnish.File.Runs
import Varnish.File.Status
import Varnish.Hash.Lookup
import Varnish.Hash.Model
import Varnish.Hash.Refs
import Varnish.Hash.Wake
import Varnish.Hcb.Map
import Varnish.Hcb.Model
import Varnish.Hcb.Owner
import Varnish.Hcb.Tree
import Varnish.Hcb.Walk
import Varnish.Hcb.Word
import Varnish.Hcl.Agree
import Varnish.Hcl.Model
import Varnish.Http.Account
import Varnish.Http.Body
import Varnish.Http.Chunked
import Varnish.Http.Conn
import Varnish.Http.Delimit
import Varnish.Http.Dissect
import Varnish.Http.Fields
import Varnish.Http.Object
import Varnish.Http.Straight
import Varnish.Http.Tally
import Varnish.Http.Ttl
import Varnish.Http.Vary
import Varnish.Http.VaryForm
import Varnish.Http.Write
import Varnish.Http.Wrw
import Varnish.Lib.Absorb
import Varnish.Lib.Binary64
import Varnish.Lib.BitPrefix
import Varnish.Lib.Bytes
import Varnish.Lib.CBlock
import Varnish.Lib.CString
import Varnish.Lib.CText
import Varnish.Lib.CountIs
import Varnish.Lib.CritTree
import Varnish.Lib.Ctype
import Varnish.Lib.Extent
import Varnish.Lib.HeapOrder
import Varnish.Lib.Include
import Varnish.Lib.Ledger
import Varnish.Lib.Restart
import Varnish.Lib.Run
import Varnish.Lib.Scanf
import Varnish.Lib.Segments
import Varnish.Lib.Shelves
import Varnish.Lib.Slots
import Varnish.Lib.Stores
import Varnish.Lib.Strtoul
import Varnish.Lib.Tailq
import Varnish.Lib.Tally
import Varnish.Lib.Tokens
import Varnish.Lib.Transducer
import Varnish.Lib.Walk
import Varnish.Lib.Weights
import Varnish.Mgt.Agree
import Varnish.Mgt.Model
import Varnish.Mgt.Param
import Varnish.Mgt.Runs
import Varnish.Ses.Epoll
import Varnish.Ses.EpollRuns
import Varnish.Ses.Model
import Varnish.Ses.Runs
import Varnish.Sha.Key
import Varnish.Sha.Model
import Varnish.Sha.Stream
import Varnish.Shmlog.Bitmap
import Varnish.Shmlog.Filter
import Varnish.Shmlog.Model
import Varnish.Shmlog.Reader
import Varnish.Shmlog.Wbuf
import Varnish.Shmlog.Writers
import Varnish.Silo.Alloc
import Varnish.Silo.Areas
import Varnish.Silo.Crash
import Varnish.Silo.Failed
import Varnish.Silo.InUse
import Varnish.Silo.Kept
import Varnish.Silo.Layout
import Varnish.Silo.Model
import Varnish.Silo.Reopen
import Varnish.Silo.Section
import Varnish.Silo.Sign
import Varnish.Silo.Space
import Varnish.Silo.Tables
import Varnish.Vbe.Director
import Varnish.Vbe.Model
import Varnish.Vbe.Poke
import Varnish.Vbe.Pool
import Varnish.Vbe.Probe
import Varnish.Vbe.RoundRobin
import Varnish.Vbe.Saint
import Varnish.Vcc.Action
import Varnish.Vcc.Branches
import Varnish.Vcc.Conditional
import Varnish.Vcc.Include
import Varnish.Vcc.Lexer
import Varnish.Vcc.Strings
import Varnish.Vcc.Xref
import Varnish.Vcl.Model
import Varnish.Vcl.Runs
import Varnish.Vcl.Table
import Varnish.Vev.Poll
import Varnish.Vev.Signal
import Varnish.Vpf.Pidfile
import Varnish.Vrt.Assemble
import Varnish.Vrt.Headers
import Varnish.Vrt.Regsub
import Varnish.Wrk.Model
import Varnish.Wrk.Work
import Varnish.Ws.Workspace
