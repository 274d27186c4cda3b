import LegMachine.Main
import LegMachine.Proofs.Isa.Decoding
import LegMachine.Proofs.Isa.Encoding
import LegMachine.Proofs.Isa.Lookup
import LegMachine.Proofs.Exec.Operands
import LegMachine.Proofs.Exec.Placement
import LegMachine.Proofs.Disasm.Rendering
import LegMachine.Proofs.Disasm.WordText
import LegMachine.Proofs.Disasm.Substitution
import LegMachine.Proofs.Disasm.Image
import LegMachine.Proofs.Disasm.FileImage
import LegMachine.Proofs.Exec.Jump
import LegMachine.Proofs.Isa.Search
import LegMachine.Proofs.Isa.TableBuilder
import LegMachine.Proofs.Isa.IndexedTable
import LegMachine.Proofs.Isa.Lossless
import LegMachine.Proofs.Isa.Layout
import LegMachine.Proofs.Isa.Mnemonic
import LegMachine.Proofs.Exec.Frame
import LegMachine.Proofs.Exec.Control
import LegMachine.Proofs.Machine.DelaySlot
import LegMachine.Proofs.Exec.DelayedBranching
import LegMachine.Proofs.Exec.Service
import LegMachine.Proofs.Exec.Leftover
import LegMachine.Proofs.Disasm.Listing
import LegMachine.Proofs.Machine.ByteMap
import LegMachine.Proofs.Exec.Checked
import LegMachine.Proofs.Exec.ZeroRegister
import LegMachine.Proofs.Exec.Hazards
import LegMachine.Proofs.Exec.Safety
import LegMachine.Proofs.Exec.Alignment
import LegMachine.Proofs.Exec.Footprint
import LegMachine.Proofs.Exec.Run
import LegMachine.Proofs.Exec.Sums
import LegMachine.Proofs.Exec.Residues
import LegMachine.Proofs.Exec.Products
import LegMachine.Proofs.Exec.Halfwords
import LegMachine.Proofs.Exec.Comparison
import LegMachine.Proofs.Exec.Accesses
import LegMachine.Proofs.Exec.StoreLoad
import LegMachine.Proofs.Ieee.Order
import LegMachine.Proofs.Exec.Floats
import LegMachine.Proofs.Exec.Shown
import LegMachine.Proofs.Json.RoundTrip
import LegMachine.Proofs.Machine.FlagText
import LegMachine.Proofs.Snapshot.Lossless
import LegMachine.Proofs.Command.Dump
import LegMachine.Proofs.Command.RunImage
import LegMachine.Proofs.Command.Numeral
