import Agensio.Codec.FifoTable
import Agensio.Quic.ReadyList
import Agensio.Quic.Credit
import Agensio.Qpack.Eviction
import Agensio.Http3.Segmentation
import Agensio.Http3.Transparent
import Agensio.Http2.Conservation
import Agensio.Http2.BlockFrames
import Agensio.Quic.Disclosure
import Agensio.Quic.Admission
import Agensio.Quic.Paths
import Agensio.Quic.Repair
import Agensio.Qpack.Cutting
import Agensio.Http.FieldMarks
import Agensio.Http3.Acknowledgements
import Agensio.Http2.SendWindow
import Agensio.Quic.Endpoint
import Agensio.Quic.Padding
import Agensio.Quic.Trimming
import Agensio.Http2.Goaway
import Agensio.Quic.KeyUpdate
import Agensio.Dispatch.Reload
import Agensio.Dispatch.Routing
import Agensio.Http.Forwarded
import Agensio.Http.RedirectTarget
import Agensio.Http1.ChunkedBody
import Agensio.Proxy.Answer
import Agensio.Response.Restricted
import Agensio.Upstream.Attempts
import Agensio.Upstream.Isolation
import Agensio.Upstream.RequestBody
import Agensio.Upstream.Slots
import Agensio.Control.Widening
import Agensio.Http.SectionRules
import Agensio.Quic.Flight
import Agensio.Quic.FrameRoundTrip
import Agensio.Quic.PacketNumber
import Agensio.Quic.OffsetSets
import Agensio.Quic.Reassembly
import Agensio.Quic.SendBatch
import Agensio.Quic.Timers
