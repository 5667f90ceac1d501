import Xfer.Transfer.Records
import Xfer.Transfer.Sender

/-! # Sessions as the sender emits them -/

namespace Xfer.Transfer

/-- The records of a session, fewer than its header can count. -/
structure SentSession where
  records : List SentRecord
  count_lt : records.length < 2 ^ 64

namespace SentSession

def header (d : SentSession) : SessionHeader := sessionHeader (d.records.map (·.entry))

/-- The records on the wire. -/
def body (d : SentSession) : Bytes := d.records.flatMap (·.encode)

def stream (d : SentSession) : Bytes := encodeSessionHeader d.header ++ (d.body ++ encodeDone)

@[simp] theorem totalFiles_header (d : SentSession) :
    d.header.totalFiles.toNat = d.records.length := by
  rw [header, sessionHeader, List.length_map]
  exact UInt64.toNat_ofNat_of_lt' d.count_lt

end SentSession

end Xfer.Transfer
