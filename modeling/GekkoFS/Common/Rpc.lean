import GekkoFS.Lib.Bytes

/-!
# Requests, replies and error codes

The structures the client and the daemons exchange, the error codes that travel in them, and what
can become of a request on the way. A bulk handle is the buffer it exposes, and is passed next to
the request.
-/

namespace GekkoFS

/-! ## Error codes -/

/-- No such file or directory. -/
def ENOENT : Nat := 2
/-- Interrupted system call. -/
def EINTR : Nat := 4
/-- Input/output error. -/
def EIO : Nat := 5
/-- Bad file descriptor. -/
def EBADF : Nat := 9
/-- Resource temporarily unavailable. -/
def EAGAIN : Nat := 11
/-- Operation would block, which is the same code. -/
def EWOULDBLOCK : Nat := EAGAIN
/-- Device or resource busy. -/
def EBUSY : Nat := 16
/-- File exists. -/
def EEXIST : Nat := 17
/-- Not a directory. -/
def ENOTDIR : Nat := 20
/-- Is a directory. -/
def EISDIR : Nat := 21
/-- Invalid argument. -/
def EINVAL : Nat := 22
/-- Directory not empty. -/
def ENOTEMPTY : Nat := 39
/-- Operation not supported. -/
def ENOTSUP : Nat := 95
/-- No buffer space available. -/
def ENOBUFS : Nat := 105

/-! ## Data requests -/

/-- The input of a read or write request.
Source: `rpc_read_data_in_t`, `rpc_write_data_in_t` (`rpc_types.hpp:89`, `rpc_types.hpp:99`). -/
structure DataIn where
  /-- The path of the file. -/
  path : List Char
  /-- The offset of the request in its first chunk. -/
  offset : Nat
  /-- The daemon the request is sent to. -/
  hostId : Nat
  /-- The number of daemons. -/
  hostSize : Nat
  /-- The chunks of the daemon, as text. -/
  wbitset : List Char
  /-- The number of chunks of the daemon. -/
  chunkN : Nat
  /-- The first chunk of the request. -/
  chunkStart : Nat
  /-- The last chunk of the request. -/
  chunkEnd : Nat
  /-- The number of bytes that go to the daemon. -/
  totalChunkSize : Nat
  deriving DecidableEq, Repr

/-- The output of a read or write request. Source: `rpc_data_out_t` (`rpc_types.hpp:97`). -/
structure DataOut where
  /-- The error code. -/
  err : Nat
  /-- The number of bytes read or written. -/
  ioSize : Nat
  deriving DecidableEq, Repr

/-! ## What becomes of a request -/

/-- What the network does to one request: it is served and answered, `post` throws before it is
sent, or it is served and `get` throws because the answer does not arrive. -/
inductive Delivery where
  | delivered
  | notPosted
  | replyLost
  deriving DecidableEq, Repr

/-! ## Bulk transfers -/

/-- Copy `n` bytes from one exposed buffer into another. A transfer that leaves a buffer is
refused. Source: `margo_bulk_transfer`, of which the code assumes this. -/
def bulkTransfer (src : List UInt8) (srcOffset : Nat) (dst : List UInt8) (dstOffset n : Nat) :
    Option (List UInt8) :=
  if srcOffset + n ≤ src.length ∧ dstOffset + n ≤ dst.length then
    some (Bytes.splice dst dstOffset (Bytes.slice src srcOffset n))
  else none

end GekkoFS
