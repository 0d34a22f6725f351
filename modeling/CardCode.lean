import CardCode.App.Arguments
import CardCode.App.BlockEdits
import CardCode.App.CanonicalRuns
import CardCode.App.Canonicalising
import CardCode.App.Compiling
import CardCode.App.Highlight
import CardCode.App.NodeCards
import CardCode.App.RoundTrip
import CardCode.App.Running
import CardCode.App.Spans
import CardCode.App.Transport
import CardCode.App.WrittenSpans
import CardCode.Compilation.Readback
import CardCode.Compilation.SourceOrder
import CardCode.DevServer.Wire
import CardCode.Harness.Framing
import CardCode.Harness.Limits
import CardCode.Harness.Rest
import CardCode.Harness.Sensors
import CardCode.Harness.Speech
import CardCode.Semantics.Arithmetic
import CardCode.Semantics.Frames
import CardCode.Semantics.Hoisting
import CardCode.Semantics.Ranges
import CardCode.Syntax.Literals
import CardCode.Syntax.Reconstruction
import CardCode.Syntax.Recovery
