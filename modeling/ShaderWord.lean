import ShaderWord.Chain
import ShaderWord.Stream
import ShaderWord.Table.Writer
import ShaderWord.Usse.Formats
import ShaderWord.Usse.View
import ShaderWord.Walk
import ShaderWord.Proofs.Pin
import ShaderWord.Proofs.Presence
import ShaderWord.Proofs.Admission
import ShaderWord.Proofs.Resolution
import ShaderWord.Proofs.Rejection
import ShaderWord.Proofs.NodeVector
import ShaderWord.Proofs.Refinement
import ShaderWord.Proofs.Layouts
import ShaderWord.Proofs.Walks
import ShaderWord.Proofs.Reachability
import ShaderWord.Proofs.Aliasing
import ShaderWord.Proofs.Ambiguity
import ShaderWord.Proofs.Keys
import ShaderWord.Proofs.Naming
import ShaderWord.Proofs.Partition
import ShaderWord.Proofs.Routing
import ShaderWord.Proofs.Traces
import ShaderWord.Proofs.Rearrangement
import ShaderWord.Proofs.Care
import ShaderWord.Proofs.Reuse
import ShaderWord.Proofs.Streams
import ShaderWord.Proofs.Terminals
import ShaderWord.Proofs.Scans
import ShaderWord.Proofs.Spellings
import ShaderWord.Proofs.JsonValues
import ShaderWord.Proofs.Drawings
import ShaderWord.Proofs.Patterns
import ShaderWord.Proofs.Placing
import ShaderWord.Proofs.Packing
import ShaderWord.Proofs.Redrawing
import ShaderWord.Proofs.Tables
import ShaderWord.Proofs.TableTexts
import ShaderWord.Proofs.Reassembly
import ShaderWord.Proofs.Widening
import ShaderWord.Proofs.DrawnDefects
import ShaderWord.Proofs.TableErrors
import ShaderWord.Proofs.KeyLists
import ShaderWord.Proofs.BuiltIn
import ShaderWord.Proofs.Extraction
import ShaderWord.Proofs.OpcodeMap
import ShaderWord.Proofs.Views
import ShaderWord.Proofs.CheckedDecoding
import ShaderWord.Proofs.Forest
import ShaderWord.Proofs.Lookups
