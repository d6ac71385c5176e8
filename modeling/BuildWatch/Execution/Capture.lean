import BuildWatch.Text.Utf8

namespace BuildWatch.Execution

structure Capture where
  bytes : Bytes
  truncated : Bool
  deriving DecidableEq, Repr

def capture : (room : Nat) → List Bytes → Capture
  | _, [] => ⟨[], false⟩
  | room, piece :: pieces =>
    let kept := min room piece.length
    let rest := capture (room - kept) pieces
    ⟨piece.take kept ++ rest.bytes, decide (kept < piece.length) || rest.truncated⟩

/-- Cut a stream into pieces of `size` bytes. The pieces of a stream are never more than `fuel` if
that is its length. -/
def piecesOf (size : Nat) : (fuel : Nat) → Bytes → List Bytes
  | _, [] => []
  | 0, bs => [bs]
  | fuel + 1, bs => bs.take size :: piecesOf size fuel (bs.drop size)

def pieceSize : Nat := 8192

def captureStream (room : Nat) (stream : Bytes) : Capture :=
  capture room (piecesOf pieceSize stream.length stream)

end BuildWatch.Execution
