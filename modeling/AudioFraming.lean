import AudioFraming.Engine.Catalog
import AudioFraming.Host.Native
import AudioFraming.Host.Worklet
import AudioFraming.Main
import AudioFraming.SampleRing.View
import AudioFraming.Proofs.SampleRing.BoundedQueue
import AudioFraming.Proofs.SampleRing.PlainRing
import AudioFraming.Proofs.Arena.Layout
import AudioFraming.Proofs.Arena.Lending
import AudioFraming.Proofs.Arena.History
import AudioFraming.Proofs.Engine.Double
import AudioFraming.Proofs.Framer.Lease
import AudioFraming.Proofs.Framer.Passes
import AudioFraming.Proofs.Framer.Copying
import AudioFraming.Proofs.Callback.Blocks
import AudioFraming.Proofs.Framer.Callbacks
import AudioFraming.Proofs.Framer.Conservation
import AudioFraming.Proofs.Framer.Delay
import AudioFraming.Proofs.Framer.Resources
import AudioFraming.Proofs.Arena.FirstFit
import AudioFraming.Proofs.Framer.Accounts
import AudioFraming.Proofs.Link.Refinement
import AudioFraming.Proofs.Link.Delivery
import AudioFraming.Proofs.Framer.Lapses
import AudioFraming.Proofs.Framer.Transport
import AudioFraming.Proofs.Framer.Recording
import AudioFraming.Proofs.Framer.Transcript
import AudioFraming.Proofs.Framer.LifeCycle
import AudioFraming.Proofs.Framer.Failure
import AudioFraming.Proofs.Framer.Pauses
import AudioFraming.Proofs.Link.Readback
import AudioFraming.Proofs.Json.Grammar
import AudioFraming.Proofs.Json.Tokens
import AudioFraming.Proofs.Engine.Silence
import AudioFraming.Proofs.Event.Encoding
import AudioFraming.Proofs.Host.Session
import AudioFraming.Proofs.Sizing.Remainders
import AudioFraming.Proofs.Framer.Backlog
import AudioFraming.Proofs.Framer.Pacing
import AudioFraming.Proofs.Arena.Agreement
import AudioFraming.Proofs.Framer.Atomicity
import AudioFraming.Proofs.Framer.Services
import AudioFraming.Proofs.Framer.Reframing
import AudioFraming.Proofs.Arena.Views
import AudioFraming.Proofs.Framer.PlainFramer
import AudioFraming.Proofs.Callback.Buffers
import AudioFraming.Proofs.Framer.Refusal
import AudioFraming.Proofs.Framer.Outage
import AudioFraming.Proofs.SampleRing.Cuttings
import AudioFraming.Proofs.Sizing.Exactness
import AudioFraming.Proofs.Arena.Canonical
import AudioFraming.Proofs.Engine.Registry
import AudioFraming.Proofs.Callback.Exchanges
import AudioFraming.Proofs.Arena.Reach
import AudioFraming.Proofs.Json.Cuts
import AudioFraming.Proofs.Message.Truncation
