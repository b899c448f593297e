import ConsoleBridge.Bus.Basic
import ConsoleBridge.Bytes
import ConsoleBridge.CommandLine.Run
import ConsoleBridge.Controller.Injector
import ConsoleBridge.Controller.Shape
import ConsoleBridge.Decimal.Text
import ConsoleBridge.Discovery.Input
import ConsoleBridge.Discovery.Ram
import ConsoleBridge.Json.Lexer
import ConsoleBridge.Json.Skip
import ConsoleBridge.Json.Writer
import ConsoleBridge.Main
import ConsoleBridge.Process.Address
import ConsoleBridge.Process.Handle
import ConsoleBridge.Process.Live
import ConsoleBridge.Process.Scripted
import ConsoleBridge.Proofs.Bus.AccessWidth
import ConsoleBridge.Proofs.Bus.BlockRead
import ConsoleBridge.Proofs.Bus.Devices
import ConsoleBridge.Proofs.Bus.FlatMemory
import ConsoleBridge.Proofs.Bus.InterruptHistory
import ConsoleBridge.Proofs.Bus.Reachable
import ConsoleBridge.Proofs.Bus.Replies
import ConsoleBridge.Proofs.Bus.Serial
import ConsoleBridge.Proofs.Bus.SerialWrites
import ConsoleBridge.Proofs.Bus.Table
import ConsoleBridge.Proofs.Bus.Words
import ConsoleBridge.Proofs.Bus.Writes
import ConsoleBridge.Proofs.Bytes.Lanes
import ConsoleBridge.Proofs.Bytes.Latch
import ConsoleBridge.Proofs.Bytes.Storage
import ConsoleBridge.Proofs.Bytes.Word
import ConsoleBridge.Proofs.CommandLine.Coherence
import ConsoleBridge.Proofs.Discovery.ChunkScan
import ConsoleBridge.Proofs.Discovery.Header
import ConsoleBridge.Proofs.Discovery.LostScan
import ConsoleBridge.Proofs.Discovery.LowestHeader
import ConsoleBridge.Proofs.Discovery.Requests
import ConsoleBridge.Proofs.Discovery.SearchEnds
import ConsoleBridge.Proofs.Json.Lexing
import ConsoleBridge.Proofs.Json.Reading
import ConsoleBridge.Proofs.Process.Connection
import ConsoleBridge.Proofs.Process.Still
import ConsoleBridge.Proofs.SaveState.Rollback
import ConsoleBridge.Proofs.Text.Base64
import ConsoleBridge.SaveState.Format
import ConsoleBridge.Text.Base64
import ConsoleBridge.Text.Blank
import ConsoleBridge.Text.Numeral
import ConsoleBridge.Text.Quoted
import ConsoleBridge.View.Basic
import ConsoleBridge.Proofs.SaveState.RoundTrip
import ConsoleBridge.Proofs.Controller.LiveWord
import ConsoleBridge.Proofs.Discovery.Captures
import ConsoleBridge.Proofs.Process.Recording
import ConsoleBridge.Proofs.Discovery.Evidence
import ConsoleBridge.Proofs.Discovery.FirstMatch
import ConsoleBridge.Proofs.Controller.Slots
import ConsoleBridge.Proofs.View.Tiers
import ConsoleBridge.Proofs.Discovery.Confinement
import ConsoleBridge.Proofs.Discovery.Twins
import ConsoleBridge.Proofs.Discovery.MainMemory
import ConsoleBridge.Proofs.Process.WriteSequence
import ConsoleBridge.Proofs.Controller.Operations
import ConsoleBridge.Proofs.Controller.Agreement
import ConsoleBridge.Proofs.View.Refresher
import ConsoleBridge.Proofs.View.SeenImages
import ConsoleBridge.Proofs.Process.Lifecycle
import ConsoleBridge.Proofs.Bus.BlockWrite
import ConsoleBridge.Proofs.Bus.ByteRuns
import ConsoleBridge.Proofs.Discovery.Transcript
import ConsoleBridge.Proofs.Text.Canonical
import ConsoleBridge.Proofs.Json.Grammar
import ConsoleBridge.Proofs.Json.Decoding
import ConsoleBridge.Proofs.SaveState.Schema
import ConsoleBridge.Proofs.Bus.PadIsolation
import ConsoleBridge.Proofs.Bus.Restart
import ConsoleBridge.Proofs.View.DirectReads
import ConsoleBridge.Proofs.View.Exposure
import ConsoleBridge.Proofs.Text.Numerals
import ConsoleBridge.Proofs.Text.Typed
import ConsoleBridge.Proofs.Process.MapsLine
import ConsoleBridge.Proofs.Process.MapsFile
import ConsoleBridge.Proofs.Process.ImageHistory
import ConsoleBridge.Proofs.Discovery.Differences
import ConsoleBridge.Proofs.Controller.Codec
import ConsoleBridge.Proofs.Bytes.Guarded
import ConsoleBridge.Proofs.Bus.Bounds
