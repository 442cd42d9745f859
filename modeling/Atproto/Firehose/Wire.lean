import Atproto.Repo.Codec
import Atproto.Repo.Diff

/-!
# Frames of the firehose

A frame is two DAG-CBOR objects one after the other, a header that names the kind of the
event and a body that carries it.  The body of a commit is decoded twice, first without its
blocks.  The deserializers of the objects are given.
-/

namespace Atproto.Firehose

open Atproto.Dasl Atproto.Repo

/-- The first object of a frame. -/
structure FrameHeader where
  op : Int
  t : Option Text

/-- The header belongs to an error frame. -/
def FrameHeader.isError (header : FrameHeader) : Bool := header.op == -1

/-! ### Events -/

/-- The payload of a commit, all but its blocks. -/
structure CommitEnvelope where
  seq : Int
  repo : Text
  rev : Text
  since : Option Text
  time : Option Text
  commit : Cid
  prevData : Option Cid
  ops : List RepoOp

/-- The state of a repository, asserted out of band. -/
structure SyncPayload where
  seq : Int
  did : Text
  rev : Text
  time : Option Text

/-- A change of a handle, a signing key or an endpoint. -/
structure IdentityPayload where
  seq : Int
  did : Text
  handle : Option Text
  time : Option Text

/-- A change of the hosting status. -/
structure AccountPayload where
  seq : Int
  did : Text
  active : Bool
  status : Option Text
  time : Option Text

/-- A notice about the stream. -/
structure InfoPayload where
  name : Text
  message : Option Text

/-- The name of the notice that the cursor is older than what the server keeps. -/
def InfoPayload.outdatedCursor : Text := textOf "OutdatedCursor"

/-- The notice says that the cursor was refused. -/
def InfoPayload.isOutdatedCursor (info : InfoPayload) : Bool :=
  info.name == InfoPayload.outdatedCursor

/-- The body of an error frame. -/
structure ErrorPayload where
  error : Text
  message : Option Text

/-- A decoded frame. -/
inductive Event where
  | commit (envelope : CommitEnvelope)
  | sync (payload : SyncPayload)
  | identity (payload : IdentityPayload)
  | account (payload : AccountPayload)
  | info (payload : InfoPayload)
  | error (payload : ErrorPayload)
  | unknown (typeTag : Text)

/-! ### Decoding -/

/-- Errors of frames. -/
inductive FrameError where
  | header (error : DecodeError)
  | truncated (consumed len : Nat)
  | body (typeTag : Text) (error : DecodeError)

/-- The deserializers, which accept DAG-CBOR that is not canonical.  The one of the header
also returns where it stopped. -/
structure FrameDecoder where
  header : Bytes → Except DecodeError (FrameHeader × Nat)
  commit : Bytes → Except DecodeError CommitEnvelope
  blocks : Bytes → Except DecodeError Bytes
  sync : Bytes → Except DecodeError SyncPayload
  identity : Bytes → Except DecodeError IdentityPayload
  account : Bytes → Except DecodeError AccountPayload
  info : Bytes → Except DecodeError InfoPayload
  error : Bytes → Except DecodeError ErrorPayload

/-- A frame split into its header and the bytes of its body. -/
structure Frame where
  header : FrameHeader
  body : Bytes

variable (decoder : FrameDecoder)

/-- Split a frame where the deserializer of the header stopped. -/
def splitFrame (frame : Bytes) : Except FrameError Frame := do
  let (header, offset) ← (decoder.header frame).mapError .header
  if frame.length < offset then .error (.truncated offset frame.length)
  else .ok ⟨header, frame.drop offset⟩

namespace Frame

/-- Decode the body of a frame. -/
def decode {α : Type} (frame : Frame) (body : Bytes → Except DecodeError α) :
    Except FrameError α :=
  (body frame.body).mapError (.body (frame.header.t.getD (textOf "#error")))

/-- Decode the body by the tag of the header. -/
def event (frame : Frame) : Except FrameError Event :=
  if frame.header.isError then .error <$> frame.decode decoder.error
  else
    let tag := frame.header.t.getD Text.empty
    if tag = textOf "#commit" then .commit <$> frame.decode decoder.commit
    else if tag = textOf "#sync" then .sync <$> frame.decode decoder.sync
    else if tag = textOf "#identity" then .identity <$> frame.decode decoder.identity
    else if tag = textOf "#account" then .account <$> frame.decode decoder.account
    else if tag = textOf "#info" then .info <$> frame.decode decoder.info
    else .ok (.unknown tag)

/-- Decode the blocks of a commit. -/
def commitBlocks (frame : Frame) : Except FrameError Bytes := frame.decode decoder.blocks

end Frame

/-! ### Tracking -/

/-- The slash, which ends the collection of a path. -/
def slash : UInt8 := 0x2f

/-- The collection that a path starts with. -/
def pathCollection (path : Text) : Bytes := path.bytes.takeWhile (· ≠ slash)

/-- An operation of the commit is on one of the collections, or there are none. -/
def matchesTracked (envelope : CommitEnvelope) (collections : List Text) : Bool :=
  collections.isEmpty ||
    envelope.ops.any fun op => collections.any fun tracked => tracked.bytes == pathCollection op.path

end Atproto.Firehose
