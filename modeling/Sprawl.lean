import Sprawl.Tvm.Assemble
import Sprawl.Tvm.Addresses
import Sprawl.Tvm.Conserve
import Sprawl.Tvm.NormalForm
import Sprawl.Tvm.Bounds
import Sprawl.Brainfuck.Trace
import Sprawl.Brainfuck.Sequence
import Sprawl.Md5.Blocks
import Sprawl.Mdm.Format
import Sprawl.Mdm.Lossless
import Sprawl.Mdm.Parser
import Sprawl.Mdm.Lines
import Sprawl.Psycal.Session
import Sprawl.Psycal.Durable
import Sprawl.Psycal.Tick
import Sprawl.Tinydb.Run
import Sprawl.Tinydb.Select
import Sprawl.Tinydb.Create
import Sprawl.Fttl.Receive
import Sprawl.Packetdraw.Graphics
import Sprawl.Gamejam.History
import Sprawl.Gamejam.Colshape
import Sprawl.Ds.Laws
import Sprawl.Ds.Hashes
import Sprawl.Uuid.Uuid
import Sprawl.Uuid.Compare
import Sprawl.Common.Granulator
import Sprawl.Pshy.Shell
import Sprawl.Brainfuck.Safety
import Sprawl.Brainfuck.Partners
import Sprawl.Common.Wraps
import Sprawl.Fttl.Client
import Sprawl.Misc.Dsu
import Sprawl.Misc.Semaphore
import Sprawl.Pshy.Builtins
import Sprawl.Pshy.Ends
import Sprawl.Uuid.Mac
import Sprawl.Fttl.Network
import Sprawl.Misc.Counters
import Sprawl.Misc.Multiplex
import Sprawl.Misc.Rendezvous
import Sprawl.Misc.MultiVector
import Sprawl.Brainfuck.Contexts
import Sprawl.Packetdraw.Threads
import Sprawl.Psycal.Threads
import Sprawl.Tvm.Compile
import Sprawl.Psycal.Network
import Sprawl.Pshy.Leaks
import Sprawl.Md5.Extend
import Sprawl.Tinydb.Rebuild
