import Dawgs.Ref.SegmentFile

/-!
# The envelope of an encrypted archive

An encrypted archive begins with a magic text and a header, which holds the
key that was encapsulated for the recipient. Frames follow, each with a
byte for its type, the length of its ciphertext and the ciphertext. Every
`Write` is cut into frames of at most one chunk, and `Close` adds a final
frame without plaintext.

The sender and the recipient of HPKE count the messages they have sealed and
opened, and the count is the nonce; the recipient counts a message only if
it was opened. What is authenticated with a frame is the magic text, the
hash of the header, the index of the frame and its type.

The reader is modelled call by call, with the position in the underlying
stream where a call stops. An error leaves it where it was found, and nothing
keeps a caller from reading on.

The cryptography and the decoding of the header are parameters.
-/

namespace Dawgs.Ref.Archive

abbrev Bytes := List UInt8

def encryptedArchiveMagic : Bytes := "RTRV-PQ-ARCHIVE-v1".toList.map fun c => UInt8.ofNat c.toNat

def encryptedArchiveChunkSize : Nat := 1024 * 1024

def maxEncryptedArchiveFrameSize : Nat := encryptedArchiveChunkSize + 4096

def maxEncryptedArchiveHeaderLen : Nat := 64 * 1024

inductive FrameType where
  | data | final
deriving DecidableEq

def FrameType.byte : FrameType → UInt8
  | .data => 0
  | .final => 1

def frameType? (b : UInt8) : Option FrameType :=
  if b = 0 then some .data else if b = 1 then some .final else none

/-- `binary.BigEndian`. -/
def putUint32 (n : Nat) : Bytes := (lowBytes 4 n).reverse

def uint32 (bytes : Bytes) : Nat := fromBytes bytes.reverse

def putUint64 (n : Nat) : Bytes := (lowBytes 8 n).reverse

/-- What the envelope uses. -/
structure Crypto (Key : Type) where
  /-- `sha256.Sum256`. -/
  sum256 : Bytes → Bytes
  length_sum256 : ∀ bytes, (sum256 bytes).length = 32
  /-- `Sender.Seal`, of the message with this number, with what is
  authenticated and the plaintext. -/
  sealMessage : Nat → Bytes → Bytes → Bytes
  /-- The tag of the AEAD. -/
  length_sealMessage : ∀ n aad plaintext,
    (sealMessage n aad plaintext).length = plaintext.length + 16
  /-- The encapsulated key of a header that decodes and is valid. -/
  decodeHeader : Bytes → Option Key
  /-- `Recipient.Open`, of the message with this number. -/
  openMessage : Key → Nat → Bytes → Bytes → Option Bytes

variable {Key : Type} (C : Crypto Key)

def archiveFrameAAD (headerHash : Bytes) (frameIndex : Nat) (frameType : FrameType) : Bytes :=
  encryptedArchiveMagic ++ 0 :: (headerHash ++ (putUint64 frameIndex ++ [frameType.byte]))

/-! ### Writing -/

structure Writer where
  /-- What has been written to the underlying writer. -/
  written : Bytes
  headerHash : Bytes
  frameIndex : Nat
  closed : Bool
  /-- The messages that the sender has sealed, in their order. -/
  sent : List (FrameType × Bytes)

/-- The magic text and the header. -/
def archivePrelude (header : Bytes) : Bytes :=
  encryptedArchiveMagic ++ (putUint32 header.length ++ header)

def newEncryptedArchiveWriter (header : Bytes) : Writer where
  written := archivePrelude header
  headerHash := C.sum256 header
  frameIndex := 0
  closed := false
  sent := []

/-- A frame with its ciphertext. -/
def frameBytes (frameType : FrameType) (ciphertext : Bytes) : Bytes :=
  frameType.byte :: (putUint32 ciphertext.length ++ ciphertext)

def writeFrame (frameType : FrameType) (plaintext : Bytes) (w : Writer) : Writer :=
  let ciphertext := C.sealMessage w.frameIndex
    (archiveFrameAAD w.headerHash w.frameIndex frameType) plaintext
  { w with
    written := w.written ++ frameBytes frameType ciphertext
    frameIndex := w.frameIndex + 1
    sent := w.sent ++ [(frameType, plaintext)] }

/-- The loop of `Write`, for as many rounds as there are bytes. -/
def writeChunks : Nat → Bytes → Writer → Writer
  | 0, _, w => w
  | n + 1, p, w =>
    if p.isEmpty then w
    else writeChunks n (p.drop encryptedArchiveChunkSize)
      (writeFrame C .data (p.take encryptedArchiveChunkSize) w)

def write (w : Writer) (p : Bytes) : Option Writer :=
  if w.closed then none else some (writeChunks C p.length p w)

def close (w : Writer) : Option Writer :=
  if w.closed then none
  else some { writeFrame C .final [] w with closed := true }

/-- Some calls of `Write` and a call of `Close`. -/
def writeArchive (header : Bytes) (writes : List Bytes) : Option Writer :=
  (writes.foldlM (write C) (newEncryptedArchiveWriter C header)).bind (close C)

/-! ### Reading -/

structure Reader (Key : Type) where
  /-- What is left of the underlying stream. -/
  rest : Bytes
  key : Key
  headerHash : Bytes
  frameIndex : Nat
  plaintext : Bytes
  final : Bool

/-- `io.ReadFull`: some bytes and what is behind them. -/
def readFull (n : Nat) (stream : Bytes) : Option (Bytes × Bytes) :=
  if n ≤ stream.length then some (stream.take n, stream.drop n) else none

def newEncryptedArchiveReader (stream : Bytes) : Option (Reader Key) :=
  (readFull encryptedArchiveMagic.length stream).bind fun (magic, stream) =>
    if magic ≠ encryptedArchiveMagic then none
    else (readFull 4 stream).bind fun (headerLenBytes, stream) =>
      let headerLen := uint32 headerLenBytes
      if headerLen = 0 ∨ maxEncryptedArchiveHeaderLen < headerLen then none
      else (readFull headerLen stream).bind fun (header, rest) =>
        (C.decodeHeader header).map fun key =>
          ⟨rest, key, C.sum256 header, 0, [], false⟩

/-- Whether the frame was read without an error, and where that leaves the
reader. -/
def readNextFrame (r : Reader Key) : Bool × Reader Key :=
  match readFull 5 r.rest with
  | none => (false, { r with rest := [] })
  | some (frameHeader, rest) =>
    let r := { r with rest }
    match frameType? (frameHeader.headD 0) with
    | none => (false, r)
    | some frameType =>
      let ciphertextLen := uint32 frameHeader.tail
      if maxEncryptedArchiveFrameSize < ciphertextLen then (false, r)
      else match readFull ciphertextLen r.rest with
        | none => (false, { r with rest := [] })
        | some (ciphertext, rest) =>
          let r := { r with rest }
          match C.openMessage r.key r.frameIndex
              (archiveFrameAAD r.headerHash r.frameIndex frameType) ciphertext with
          | none => (false, r)
          | some plaintext =>
            let r := { r with frameIndex := r.frameIndex + 1 }
            match frameType with
            | .data => (true, { r with plaintext })
            | .final =>
              if !plaintext.isEmpty then (false, r)
              else if !r.rest.isEmpty then
                -- one byte is read to see whether there is one
                (false, { r with rest := r.rest.drop 1 })
              else (true, { r with final := true })

inductive Outcome where
  | ready | eof | error
deriving DecidableEq

/-- The loop of `Read`, for some rounds. -/
def fill : Nat → Reader Key → Outcome × Reader Key
  | 0, r => (.error, r)
  | n + 1, r =>
    if !r.plaintext.isEmpty then (.ready, r)
    else if r.final then (.eof, r)
    else match readNextFrame C r with
      | (false, r) => (.error, r)
      | (true, r) => fill n r

inductive ReadResult where
  | bytes (p : Bytes)
  | eof
  | error
deriving DecidableEq

/-- `Read` into a buffer of a size. Each round but the last takes bytes from
the stream, so the stream bounds the rounds. -/
def read (r : Reader Key) (size : Nat) : ReadResult × Reader Key :=
  if size = 0 then (.bytes [], r)
  else match fill C (r.rest.length + 1) r with
    | (.ready, r) => (.bytes (r.plaintext.take size),
        { r with plaintext := r.plaintext.drop size })
    | (.eof, r) => (.eof, r)
    | (.error, r) => (.error, r)

/-- Some calls of `Read`, the first one first. -/
def reads : List Nat → Reader Key → List ReadResult × Reader Key
  | [], r => ([], r)
  | size :: sizes, r =>
    let (result, r) := read C r size
    let (results, r) := reads sizes r
    (result :: results, r)

def ReadResult.delivered : ReadResult → Bytes
  | .bytes p => p
  | _ => []

/-- The bytes that some calls deliver. -/
def delivered (results : List ReadResult) : Bytes := results.flatMap ReadResult.delivered

/-- An end of file is reported, and no error before it. -/
def ReportsCleanEOF (results : List ReadResult) : Prop :=
  ∃ before after, results = before ++ .eof :: after ∧ .error ∉ before

/-- An ideal AEAD: what is opened is what was sealed, under its number, with
what was authenticated; nothing else is. The header is the only text with
its hash, and it decodes to the key it was made with. -/
structure Ideal (header : Bytes) (key : Key) (sent : List (FrameType × Bytes)) : Prop where
  header_pos : 0 < header.length
  header_le : header.length ≤ maxEncryptedArchiveHeaderLen
  decode : C.decodeHeader header = some key
  second_preimage : ∀ bytes, C.sum256 bytes = C.sum256 header → bytes = header
  opens : ∀ {n frameType plaintext}, sent[n]? = some (frameType, plaintext) →
    C.openMessage key n (archiveFrameAAD (C.sum256 header) n frameType)
        (C.sealMessage n (archiveFrameAAD (C.sum256 header) n frameType) plaintext) = some plaintext
  only : ∀ {k n aad ciphertext plaintext}, C.openMessage k n aad ciphertext = some plaintext →
    k = key ∧ ∃ frameType, sent[n]? = some (frameType, plaintext) ∧
      aad = archiveFrameAAD (C.sum256 header) n frameType ∧
      ciphertext = C.sealMessage n aad plaintext

end Dawgs.Ref.Archive
