import ChordChat.Clockwise.Order
import ChordChat.Clockwise.Interval
import ChordChat.Clockwise.Pointers
import ChordChat.Clockwise.Growth
import ChordChat.Clockwise.Ideal
import ChordChat.Clockwise.Doubling
import ChordChat.Clockwise.Tightening
import ChordChat.Clockwise.Mending
import ChordChat.Blocks.Chaining
import ChordChat.Radix.BigEndian
import ChordChat.Radix.Borrow
import ChordChat.Text.Cut
import ChordChat.Interleaving.Pool
import ChordChat.Bytes
import ChordChat.Sha1
import ChordChat.ID
import ChordChat.Digest
import ChordChat.INode
import ChordChat.FingerTable
import ChordChat.Addition
import ChordChat.Subtraction
import ChordChat.Numeric
import ChordChat.Comparison
import ChordChat.LocalNode
import ChordChat.Halving
import ChordChat.Network
import ChordChat.Stabilize
import ChordChat.Protocol
import ChordChat.Invariant
import ChordChat.Preservation
import ChordChat.Ring
import ChordChat.Quiescence
import ChordChat.Convergence
import ChordChat.Rounds
import ChordChat.Records
import ChordChat.Walk
import ChordChat.Lookup
import ChordChat.FixFingers
import ChordChat.Predecessor
import ChordChat.Repair
import ChordChat.FingerSlots
import ChordChat.Recovery
import ChordChat.Threads
import ChordChat.Lifecycle
import ChordChat.Notifying
import ChordChat.Joining
import ChordChat.NullRead
import ChordChat.Wire
import ChordChat.Request
import ChordChat.OwnObject
import ChordChat.Failure
import ChordChat.RemoteNode
import ChordChat.Bytewise
import ChordChat.ChatClient
import ChordChat.Availability
import ChordChat.Maintenance
import ChordChat.Messages
import ChordChat.Transparency
import ChordChat.Malformed
import ChordChat.Overread
import ChordChat.StringTrim
import ChordChat.NodeString
import ChordChat.Commands
import ChordChat.Session
import ChordChat.Conversation
import ChordChat.Delivery
import ChordChat.Consoles
import ChordChat.Completion
