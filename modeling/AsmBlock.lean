import AsmBlock.Fault
import AsmBlock.Utf8
import AsmBlock.Source
import AsmBlock.Cursor
import AsmBlock.Cursor.Session
import AsmBlock.Token
import AsmBlock.TokenFlags
import AsmBlock.Log.Event
import AsmBlock.Log.Filter
import AsmBlock.Log.Logger
import AsmBlock.Input
import AsmBlock.Input.Recorded
import AsmBlock.SourceInput
import AsmBlock.Block.State
import AsmBlock.Block.Scan
import AsmBlock.SourceInput.Session
import AsmBlock.Plugin.Payload
import AsmBlock.Host
import AsmBlock.Plugin
import AsmBlock.Plugin.Session
import AsmBlock.Environment
import AsmBlock.Proofs.Cursor.Decoding
import AsmBlock.Proofs.Block.Walk
import AsmBlock.Proofs.SourceInput.Scanning
import AsmBlock.Proofs.Block.Body
import AsmBlock.Proofs.Block.Diagnosis
import AsmBlock.Proofs.Block.Recognition
import AsmBlock.Proofs.Host.Scanning
import AsmBlock.Proofs.Plugin.Agreement
import AsmBlock.Proofs.Block.ByteMachine
import AsmBlock.Proofs.Block.BraceTrace
import AsmBlock.Proofs.Block.Resumption
import AsmBlock.Proofs.SourceInput.Reachability
import AsmBlock.Proofs.SourceInput.Order
import AsmBlock.Proofs.Host.Mirror
import AsmBlock.Proofs.Block.Calls
import AsmBlock.Proofs.Cursor.Iteration
import AsmBlock.Proofs.Plugin.Scanning
import AsmBlock.Proofs.Host.Classes
import AsmBlock.Proofs.Plugin.Statelessness
import AsmBlock.Proofs.Source.Slicing
import AsmBlock.Proofs.Cursor.Faults
import AsmBlock.Proofs.Block.Loop
import AsmBlock.Proofs.SourceInput.Safety
import AsmBlock.Proofs.Block.Marks
import AsmBlock.Proofs.Block.Nesting
import AsmBlock.Proofs.Block.Repetition
import AsmBlock.Proofs.Log.Decision
import AsmBlock.Proofs.Source.Layout
import AsmBlock.Proofs.SourceInput.EndOfText
import AsmBlock.Proofs.Log.Reading
import AsmBlock.Proofs.Environment.Lines
