import GracefulMusic.Tracks.Coherence
import GracefulMusic.Playback.Fifo
import GracefulMusic.Expr.LongForm
import GracefulMusic.Expr.Descent
import GracefulMusic.Filters.Sharing
import GracefulMusic.Library.LiveFilter
import GracefulMusic.Library.CollectionShape
import GracefulMusic.Playlist.PlayingTrack
import GracefulMusic.Playlist.RoundTrip
import GracefulMusic.Playlist.Windows
import GracefulMusic.Jobs.Saving
import GracefulMusic.Jobs.Reload
import GracefulMusic.Format.Tokens
import GracefulMusic.Format.Language
import GracefulMusic.Player.Safety
import GracefulMusic.Player.Deadlock
import GracefulMusic.Cache.Safety
import GracefulMusic.Cache.RoundTrip
import GracefulMusic.Cache.Interference
import GracefulMusic.Glob.Match
import GracefulMusic.Stream.ReadWrapper
import GracefulMusic.CommandLine.Invariant
import GracefulMusic.Server.Lines
import GracefulMusic.Window.Changes
import GracefulMusic.Commands.Seek
import GracefulMusic.Urls.Cdda
import GracefulMusic.Urls.CueTracks
import GracefulMusic.Shuffle.Order
import GracefulMusic.Stream.Ffmpeg
import GracefulMusic.Library.Activation
import GracefulMusic.Library.CurrentTrack
import GracefulMusic.Queue.Order
import GracefulMusic.Browser.Atomicity
import GracefulMusic.Commands.SaveGuard
import GracefulMusic.Tracks.Counters
import GracefulMusic.Input.Plugins
import GracefulMusic.Commands.Volume
import GracefulMusic.Foundation.Blocks
import GracefulMusic.Commands.Arguments
import GracefulMusic.Commands.Run
import GracefulMusic.Expr.ShortBalance
import GracefulMusic.Input.FrameScanner
import GracefulMusic.Input.Conversion
import GracefulMusic.Playback.Alignment
import GracefulMusic.Input.Id3
import GracefulMusic.Autosave.RoundTrip
import GracefulMusic.Format.Width
import GracefulMusic.Input.Unsync
import GracefulMusic.Input.ApeTag
import GracefulMusic.Input.ApeItems
import GracefulMusic.Paths.Resolution
import GracefulMusic.Urls.CueLines
import GracefulMusic.Urls.CueTimes
import GracefulMusic.Tracks.Layout
import GracefulMusic.Tracks.MoveWindow
import GracefulMusic.Tracks.SortFields
import GracefulMusic.Tracks.SortOrder
import GracefulMusic.Playback.Volume
import GracefulMusic.Playback.VolumeFrames
import GracefulMusic.Playback.Scaling
import GracefulMusic.Playback.ScaledOnce
import GracefulMusic.Format.Printed
import GracefulMusic.Urls.CueNumbers
import GracefulMusic.Playlist.LineOrder
import GracefulMusic.CommandLine.Cursor
import GracefulMusic.Library.AlbumSteps
import GracefulMusic.Uchar.Validity
import GracefulMusic.Expr.IntLeaf
import GracefulMusic.Format.Conditions
import GracefulMusic.Format.Overread
import GracefulMusic.Format.Gbuf
import GracefulMusic.Format.Room
import GracefulMusic.Commands.Lookup
import GracefulMusic.Library.NextTrack
import GracefulMusic.Http.BasicAuth
import GracefulMusic.Http.Uri
import GracefulMusic.Http.Response
import GracefulMusic.CommandLine.Histories
import GracefulMusic.Playback.Prebuffer
import GracefulMusic.Playlist.Mergesort
import GracefulMusic.Search.Termination
import GracefulMusic.Tracks.SortKeys
import GracefulMusic.Glob.Simplify
import GracefulMusic.Jobs.Cancelling
import GracefulMusic.Autosave.Resume
import GracefulMusic.Playlist.Names
import GracefulMusic.Rbtree.ShuffleList
import GracefulMusic.Locking.Served
import GracefulMusic.Options.Restored
import GracefulMusic.Queue.RandArray
import GracefulMusic.Queue.RandomOrder
