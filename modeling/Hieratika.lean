import Hieratika.Workers.Ranges
import Hieratika.Sender.Barrier
import Hieratika.Sender.Tracking
import Hieratika.Sender.Tiling
import Hieratika.Receiver.Bounds
import Hieratika.Receiver.PutLoop
import Hieratika.Receiver.Mirror
import Hieratika.Receiver.IndexCache
import Hieratika.Receiver.Resync
import Hieratika.Subscriber.Callbacks
import Hieratika.Subscriber.Places
import Hieratika.Subscriber.Layout
import Hieratika.Diode.Limits
import Hieratika.Sender.Slices
import Hieratika.Sender.Reset
import Hieratika.Sender.Queue
import Hieratika.Sender.Trip
import Hieratika.Receiver.Rejects
import Hieratika.ChannelAccess.Put
import Hieratika.ChannelAccess.Stamp
import Hieratika.Foundations.Merge
import Hieratika.Sender.Whole
import Hieratika.Receiver.OneFrame
import Hieratika.Diode.Link
import Hieratika.Diode.Latest
import Hieratika.Foundations.Insertion
import Hieratika.Sender.Collect
import Hieratika.Sender.SmallestFirst
import Hieratika.Sender.Budget
import Hieratika.Sender.Initialise
import Hieratika.Sender.OnlyChanged
import Hieratika.Receiver.Names
import Hieratika.Receiver.Search
import Hieratika.Diode.Namesake
import Hieratika.Receiver.Terminates
import Hieratika.Receiver.Reads
import Hieratika.Diode.Convert
import Hieratika.ChannelAccess.Checks
import Hieratika.ChannelAccess.Framed
import Hieratika.Sender.Replies
import Hieratika.Receiver.Startup
import Hieratika.Subscriber.Divisions
import Hieratika.Sender.Divisions
import Hieratika.Diode.PvFile
import Hieratika.Diode.PvList
import Hieratika.Foundations.Commute
import Hieratika.Receiver.Commute
import Hieratika.Receiver.Interleave
import Hieratika.Foundations.Deterministic
import Hieratika.Receiver.BodyTurns
import Hieratika.Receiver.Connection
import Hieratika.Receiver.Cut
import Hieratika.Sender.Failures
import Hieratika.Foundations.Ownership
import Hieratika.Receiver.Server
import Hieratika.Foundations.Tally
import Hieratika.Receiver.Handshake
import Hieratika.ChannelAccess.Camessage
import Hieratika.ChannelAccess.Stream
import Hieratika.Receiver.PutOrder
import Hieratika.Diode.Outage
import Hieratika.Foundations.Visits
import Hieratika.Sender.Starvation
import Hieratika.Diode.Pipeline
