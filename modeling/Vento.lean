import Vento.Lib.Runs
import Vento.Lib.Parse
import Vento.Lib.Raster
import Vento.Lib.Collect
import Vento.Lib.Loop
import Vento.Lib.Comp
import Vento.Lib.Bytes
import Vento.Lib.Utf16
import Vento.Lib.Alternate
import Vento.Lib.Tape
import Vento.Runtime.Slot
import Vento.Runtime.Bridge
import Vento.Rfb.Keys
import Vento.Rfb.Focus
import Vento.Rfb.Proto
import Vento.Rfb.Decode
import Vento.Rfb.Encodings
import Vento.Rfb.Zlib
import Vento.Rfb.Zrle
import Vento.Rfb.ZrleEncodings
import Vento.Rfb.ZrleTiles
import Vento.Rfb.Framebuffer
import Vento.Rfb.Clipboard
import Vento.Rfb.Client
import Vento.Rfb.ClipboardProtocol
import Vento.Rfb.Bounds
import Vento.Rfb.Messages
import Vento.Rfb.ClipboardRoundTrip
import Vento.Rfb.Security
import Vento.Rfb.SecurityPolicy
import Vento.Spice.Agent
import Vento.Spice.Reassembly
import Vento.Spice.Flow
import Vento.Spice.Ownership
import Vento.Spice.Channel
import Vento.Spice.Framebuffer
import Vento.Spice.Display
import Vento.Control.KeySink
import Vento.Control.TextInput
import Vento.Control.PhysicalKeyboard
import Vento.Control.ExtensionKeyboard
import Vento.Control.MouseSink
import Vento.Control.GestureRecognizer
import Vento.Control.TouchRouter
import Vento.Control.CursorController
import Vento.Control.MouseOverlay
import Vento.Audio.Rhythm
import Vento.Audio.Rises
import Vento.Audio.Resample
import Vento.Audio.Queue
import Vento.Audio.Latency
import Vento.Audio.Drain
import Vento.Audio.Conserved
import Vento.Video.Convert
import Vento.Video.Vector
import Vento.Video.Diff
import Vento.Video.Output
import Vento.Video.Incremental
import Vento.Video.I420
import Vento.Audio.Controls
import Vento.Runtime.Hangup
import Vento.Spice.Keyboard
import Vento.Spice.Images
import Vento.Rustdesk.Trust
import Vento.Rustdesk.Prompt
import Vento.Rustdesk.Keys
import Vento.Rustdesk.Pointer
import Vento.Rustdesk.Pictures
import Vento.Runtime.ViewOnly
import Vento.Ironrdp.Shift
import Vento.Ironrdp.Clipboard
import Vento.Rustdesk.Wire
import Vento.Api.Delivery
import Vento.Linux.Forget
import Vento.Linux.RoundTrip
import Vento.Freerdp.Keymap
import Vento.Freerdp.Input
import Vento.Freerdp.Keyboard
import Vento.Lib.Extreme
import Vento.Linux.Keyboard
import Vento.Session.SessionClipboard
import Vento.Runtime.SplitAddress
import Vento.Freerdp.Layout
import Vento.Session.Mirror
import Vento.Audio.Stream
import Vento.Audio.Chunks
import Vento.Rustdesk.Rendezvous
import Vento.Api.LineEnds
import Vento.Api.Utf8
import Vento.Rfb.Layout
import Vento.Spice.Alpha
import Vento.Spice.Fit
import Vento.Spice.Cursors
import Vento.Spice.Playback
import Vento.Rfb.Version
import Vento.Control.Viewport
import Vento.Control.Zoom
import Vento.Rfb.Relative
import Vento.Linux.Follow
import Vento.Linux.ZipArchive
import Vento.Linux.Pointing
import Vento.Linux.ClipboardReads
import Vento.Linux.ClipboardDesk
import Vento.Freerdp.Monitors
import Vento.Api.Credentials
import Vento.Api.Options
import Vento.App.Connections
import Vento.App.Previews
import Vento.App.Prompts
import Vento.App.SessionService
import Vento.App.Export
