import Orbis.Event
import Orbis.Isa.Assembly
import Orbis.Configuration
import Orbis.Statistics
import Orbis.Main
import Orbis.Scripting
import Orbis.Proofs.AccessFaults
import Orbis.Proofs.Cancellation
import Orbis.Proofs.Coherence
import Orbis.Proofs.Conservation
import Orbis.Proofs.Canonical
import Orbis.Proofs.DirectMapping
import Orbis.Proofs.Disassembly
import Orbis.Proofs.Erasure
import Orbis.Proofs.ExactArithmetic
import Orbis.Proofs.FixedOne
import Orbis.Proofs.Frames
import Orbis.Proofs.ImageLoading
import Orbis.Proofs.InterruptCounts
import Orbis.Proofs.Jumps
import Orbis.Proofs.LoadedPrograms
import Orbis.Proofs.Operations
import Orbis.Proofs.PendingTick
import Orbis.Proofs.Positions
import Orbis.Proofs.PreciseFaults
import Orbis.Proofs.Promotion
import Orbis.Proofs.RememberedPage
import Orbis.Proofs.Restart
import Orbis.Proofs.SerialService
import Orbis.Proofs.Slices
import Orbis.Proofs.SlotMarks
import Orbis.Proofs.SpecialRegisters
import Orbis.Proofs.TimeKeeping
import Orbis.Proofs.TransmitQueue
import Orbis.Proofs.UserAccess
import Orbis.Proofs.WideAccesses
