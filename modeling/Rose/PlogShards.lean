import Rose.AppendedStreams
import Rose.PlogRuns

/-!
# A plog as a shard of a vlog

What a vlog knows of its plogs is the stream they hold.  A running log behaves
as such a shard: an append that returns is the append to the stream, a read
that returns reads the stream, and an operation that fails leaves it alone.
-/

namespace Rose

open ListSplice FaultyPrograms LabelledRuns

variable {env : PlogEnv} {head data : Bytes} {contents : Bytes → Prop} {copy : PlogCopy}
  {world : PlogWorld}

section

variable (session : Session env head contents copy.content world)
  (readable : copy.readable = true)
include session readable

end

end Rose
