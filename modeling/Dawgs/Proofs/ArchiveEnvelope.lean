import Dawgs.Proofs.SegmentFile
import Dawgs.Ref.ArchiveEnvelope

/-!
# The envelope of an archive keeps what was written

The writer seals a list of messages: the chunks of every `Write`, none of
them empty, and an empty final message behind them (`Sent`). What it writes
is the header and one frame for each message (`framesFrom`).

With an ideal AEAD a frame is opened only if it is the message with the
number that the recipient has counted to, authenticated with the hash of the
header that was sent, the same number and the same type (`opened`). The
reader counts its frames as the recipient counts its messages, so the three
invariants below speak of one number only, the index of the frame.

* `Faithful`: what was delivered and what is buffered are the plaintexts of
  the messages before that index. It holds for any stream, and also when a
  caller reads on after an error: an error changes neither.
* `Genuine`: as long as there was no error, the stream is the header, the
  frames of the messages before that index and the rest. At the end the
  index is the number of messages and the rest is empty, which leaves the
  stream that was written. A reader that has opened no frame may have
  another header; the first frame tells them apart.
* `OnTrack`: on the stream that was written the rest is the frames of the
  messages from that index on, so there is no error, and every call either
  delivers a byte or reports the end.
-/

namespace Dawgs.Ref.Archive

open List Option Nat

variable {Key : Type} {C : Crypto Key}

/-! ### Numbers -/

theorem length_putUint32 {n : Nat} : (putUint32 n).length = 4 := by
  rw [putUint32, length_reverse, length_lowBytes]

variable {n : Nat} {p rest ciphertext : Bytes} {frameType : FrameType}

theorem uint32_putUint32 (h : n < 256 ^ 4) : uint32 (putUint32 n) = n := by
  rw [uint32, putUint32, reverse_reverse, fromBytes_lowBytes h]

theorem lowBytes_fromBytes (bytes : Bytes) : lowBytes bytes.length (fromBytes bytes) = bytes := by
  induction bytes with
  | nil => rfl
  | cons b bytes ih =>
    have hb : UInt8.ofNat (b.toNat + 256 * fromBytes bytes) = b := by
      rw [← UInt8.toNat_inj, UInt8.toNat_ofNat']
      have := b.toNat_lt
      omega
    have hrest : (b.toNat + 256 * fromBytes bytes) / 256 = fromBytes bytes := by
      have := b.toNat_lt
      omega
    rw [length_cons, fromBytes, lowBytes, hb, hrest, ih]

theorem putUint32_uint32 {bytes : Bytes} (h : bytes.length = 4) :
    putUint32 (uint32 bytes) = bytes := by
  have hreverse := lowBytes_fromBytes bytes.reverse
  rw [length_reverse, h] at hreverse
  rw [putUint32, uint32, hreverse, reverse_reverse]

/-! ### The frames -/

variable (C) in
/-- The frames of some messages, the first of which has this number. -/
def framesFrom (headerHash : Bytes) : Nat → List (FrameType × Bytes) → Bytes
  | _, [] => []
  | n, (frameType, plaintext) :: sent =>
    frameBytes frameType (C.sealMessage n (archiveFrameAAD headerHash n frameType) plaintext) ++
      framesFrom headerHash (n + 1) sent

theorem framesFrom_append (headerHash : Bytes) {n : Nat} (sent sent' : List (FrameType × Bytes)) :
    framesFrom C headerHash n (sent ++ sent') = framesFrom C headerHash n sent ++
        framesFrom C headerHash (n + sent.length) sent' := by
  induction sent generalizing n with
  | nil => rfl
  | cons m sent ih =>
    rw [cons_append, framesFrom, framesFrom, ih, append_assoc,
      length_cons, add_assoc, add_comm 1]

/-- What the writer has written is the frames of what it has sealed. -/
structure Written (C : Crypto Key) (header : Bytes) (w : Writer) : Prop where
  headerHash : w.headerHash = C.sum256 header
  frameIndex : w.frameIndex = w.sent.length
  written : w.written = archivePrelude header ++ framesFrom C (C.sum256 header) 0 w.sent

variable {header : Bytes} {w w' : Writer} {sent : List (FrameType × Bytes)}

theorem Written.writeFrame (h : Written C header w) (frameType : FrameType)
    (p : Bytes) : Written C header (writeFrame C frameType p w) where
  headerHash := h.headerHash
  frameIndex := by
    show w.frameIndex + 1 = (w.sent ++ [(frameType, p)]).length
    rw [h.frameIndex, length_append, length_singleton]
  written := by
    show w.written ++ frameBytes frameType _ = _ ++ framesFrom C _ 0 (w.sent ++ [(frameType, p)])
    rw [framesFrom_append, h.written, append_assoc, h.headerHash,
      h.frameIndex, zero_add, framesFrom, framesFrom, append_nil]

/-- The messages of the calls of `Write`. -/
def Chunks (data : Bytes) (sent : List (FrameType × Bytes)) : Prop :=
  ∃ chunks : List Bytes, sent = chunks.map (FrameType.data, ·) ∧ chunks.flatten = data ∧
    ∀ p ∈ chunks, p ≠ [] ∧ p.length ≤ encryptedArchiveChunkSize

theorem Chunks.append {data data' : Bytes} {sent' : List (FrameType × Bytes)}
    (h : Chunks data sent) (h' : Chunks data' sent') : Chunks (data ++ data') (sent ++ sent') := by
  obtain ⟨chunks, rfl, rfl, hchunks⟩ := h
  obtain ⟨chunks', rfl, rfl, hchunks'⟩ := h'
  exact ⟨chunks ++ chunks', (map_append ..).symm,
    flatten_append .., forall_mem_append.mpr ⟨hchunks, hchunks'⟩⟩

theorem writeChunks_spec (h : Written C header w) (hn : p.length ≤ n) :
    Written C header (writeChunks C n p w) ∧ (writeChunks C n p w).closed = w.closed ∧
      ∃ sent, (writeChunks C n p w).sent = w.sent ++ sent ∧ Chunks p sent := by
  induction n generalizing p w with
  | zero =>
    obtain rfl := eq_nil_of_length_eq_zero (le_zero.mp hn)
    exact ⟨h, rfl, [], (append_nil _).symm, [], rfl, rfl, nofun⟩
  | succ n ih =>
    unfold writeChunks
    split
    next hempty =>
      rw [isEmpty_iff.mp hempty]
      exact ⟨h, rfl, [], (append_nil _).symm, [], rfl, rfl, nofun⟩
    next hempty =>
      have hne : p ≠ [] := fun hp => hempty (isEmpty_iff.mpr hp)
      have hpos := length_pos_iff.mpr hne
      have hchunk : 0 < encryptedArchiveChunkSize := by decide
      have hlen : (p.drop encryptedArchiveChunkSize).length ≤ n := by
        rw [length_drop]
        omega
      obtain ⟨hw, hclosed, sent, hsent, hchunks⟩ :=
        ih (h.writeFrame .data (p.take encryptedArchiveChunkSize)) hlen
      refine ⟨hw, hclosed, (.data, p.take encryptedArchiveChunkSize) :: sent, ?_, ?_⟩
      · rw [hsent]
        exact append_assoc ..
      · have hfirst : Chunks (p.take encryptedArchiveChunkSize)
            [(.data, p.take encryptedArchiveChunkSize)] := by
          refine ⟨[_], rfl, append_nil _, forall_mem_singleton.mpr ⟨?_, length_take_le ..⟩⟩
          intro htake
          have := congrArg length htake
          rw [length_take, length_nil] at this
          omega
        have hall := hfirst.append hchunks
        rwa [take_append_drop] at hall

/-- Some calls of `Write` on an open writer. -/
theorem foldlM_write_spec (h : Written C header w) (hopen : w.closed = false)
    (writes : List Bytes) :
    ∃ w', writes.foldlM (write C) w = some w' ∧ Written C header w' ∧
      w'.closed = false ∧ ∃ sent, w'.sent = w.sent ++ sent ∧ Chunks writes.flatten sent := by
  induction writes generalizing w with
  | nil =>
    exact ⟨w, rfl, h, hopen, [], (append_nil _).symm, [], rfl, rfl, nofun⟩
  | cons p writes ih =>
    obtain ⟨hw, hclosed, sent, hsent, hchunks⟩ := writeChunks_spec h (le_refl p.length)
    obtain ⟨w', hwrites, hw', hopen', sent', hsent', hchunks'⟩ := ih hw (hclosed.trans hopen)
    refine ⟨w', ?_, hw', hopen', sent ++ sent', ?_, hchunks.append hchunks'⟩
    · rw [foldlM_cons, write, hopen]
      exact hwrites
    · rw [hsent', hsent, append_assoc]

/-- What an archive is made of. -/
def Sent (data : Bytes) (sent : List (FrameType × Bytes)) : Prop :=
  ∃ sent', sent = sent' ++ [(.final, [])] ∧ Chunks data sent'

theorem writeArchive_spec {C : Crypto Key} (header : Bytes) (writes : List Bytes) :
    ∃ w, writeArchive C header writes = some w ∧ w.written = archivePrelude header ++
        framesFrom C (C.sum256 header) 0 w.sent ∧ Sent writes.flatten w.sent := by
  have hstart : Written C header (newEncryptedArchiveWriter C header) :=
    ⟨rfl, rfl, (append_nil _).symm⟩
  obtain ⟨w, hwrites, hw, hopen, sent, hsent, hchunks⟩ := foldlM_write_spec hstart rfl writes
  refine ⟨{ writeFrame C .final [] w with closed := true }, ?_,
    (hw.writeFrame .final []).written, sent, ?_, hchunks⟩
  · rw [writeArchive, hwrites, bind_some, close, hopen]
    rfl
  · show w.sent ++ [(FrameType.final, [])] = _
    rw [hsent]
    rfl

/-! ### The messages -/

variable {data : Bytes}

/-- The plaintext of some messages. -/
def payload (sent : List (FrameType × Bytes)) : Bytes := sent.flatMap Prod.snd

section

variable (h : Sent data sent)
include h

theorem Sent.payload_eq : payload sent = data := by
  obtain ⟨sent', rfl, chunks, rfl, rfl, -⟩ := h
  rw [payload, flatMap_append, flatMap_map]
  show chunks.flatMap id ++ [] = _
  rw [append_nil, flatMap_id]

theorem Sent.length_pos : 0 < sent.length := by
  obtain ⟨sent', rfl, -⟩ := h
  simp

/-- The final message is the last one and is empty. A message with data is
not empty, fits into a chunk and comes before it. -/
theorem Sent.cases (hn : sent[n]? = some (frameType, p)) :
    frameType = .final ∧ p = [] ∧ n + 1 = sent.length ∨ frameType = .data ∧
      p ≠ [] ∧ p.length ≤ encryptedArchiveChunkSize ∧ n + 1 < sent.length := by
  obtain ⟨sent', rfl, chunks, rfl, -, hchunks⟩ := h
  rw [length_append, length_singleton]
  rcases lt_or_ge n (chunks.map (FrameType.data, ·)).length with hlt | hge
  · rw [getElem?_append_left hlt, getElem?_map] at hn
    obtain ⟨q, hq, heq⟩ := map_eq_some_iff.mp hn
    cases heq
    obtain ⟨hne, hle⟩ := hchunks p (mem_of_getElem? hq)
    exact .inr ⟨rfl, hne, hle, by omega⟩
  · rw [getElem?_append_right hge] at hn
    obtain ⟨hlt, heq⟩ := List.getElem?_eq_some_iff.mp hn
    rw [length_singleton] at hlt
    rw [getElem_singleton] at heq
    cases heq
    exact .inl ⟨rfl, rfl, by omega⟩

theorem Sent.final (hn : sent[n]? = some (.final, p)) :
    p = [] ∧ n + 1 = sent.length := ((h.cases hn).resolve_right nofun).2

theorem Sent.chunk (hn : sent[n]? = some (.data, p)) :
    p ≠ [] ∧ p.length ≤ encryptedArchiveChunkSize ∧ n + 1 < sent.length :=
  ((h.cases hn).resolve_left nofun).2

end

theorem payload_take_succ {m : FrameType × Bytes} (hn : sent[n]? = some m) :
    payload (sent.take (n + 1)) = payload (sent.take n) ++ m.2 := by
  rw [take_add_one, hn, payload, flatMap_append]
  exact congrArg _ (append_nil _)

theorem framesFrom_take_succ (headerHash : Bytes) (hn : sent[n]? = some (frameType, p)) :
    framesFrom C headerHash 0 (sent.take (n + 1)) = framesFrom C headerHash 0 (sent.take n) ++
        frameBytes frameType (C.sealMessage n (archiveFrameAAD headerHash n frameType) p) := by
  obtain ⟨hlt, -⟩ := List.getElem?_eq_some_iff.mp hn
  rw [take_add_one, hn, framesFrom_append, length_take,
    min_eq_left (le_of_lt hlt), zero_add]
  show _ ++ (_ ++ framesFrom C headerHash (n + 1) []) = _
  rw [framesFrom, append_nil]

/-- What is authenticated tells the header and the type. -/
theorem archiveFrameAAD_inj {hash hash' : Bytes} {frameType' : FrameType}
    (hlen : hash.length = hash'.length) (h : archiveFrameAAD hash n frameType =
      archiveFrameAAD hash' n frameType') : hash = hash' ∧ frameType = frameType' := by
  have htail := append_cancel_left h
  have htail := (cons.inj htail).2
  obtain ⟨rfl, htype⟩ := append_inj htail hlen
  have hbyte := append_cancel_left htype
  refine ⟨rfl, ?_⟩
  cases frameType <;> cases frameType' <;> first | rfl | cases hbyte

/-! ### One frame -/

variable {r r' : Reader Key} {stream : Bytes}

/-- What reading a frame can do. -/
inductive Next (C : Crypto Key) (r : Reader Key) : Bool × Reader Key → Prop where
  /-- Nothing is opened. -/
  | refused (rest : Bytes) : Next C r (false, { r with rest })
  /-- A frame with data is opened. -/
  | data {ciphertext plaintext rest : Bytes} (hrest : r.rest = frameBytes .data ciphertext ++ rest)
      (hopen : C.openMessage r.key r.frameIndex
        (archiveFrameAAD r.headerHash r.frameIndex .data) ciphertext = some plaintext) :
      Next C r (true, { r with rest, frameIndex := r.frameIndex + 1, plaintext })
  /-- The final frame is opened, and nothing follows. -/
  | ended {ciphertext : Bytes} (hrest : r.rest = frameBytes .final ciphertext)
      (hopen : C.openMessage r.key r.frameIndex
        (archiveFrameAAD r.headerHash r.frameIndex .final) ciphertext = some []) :
      Next C r (true, { r with rest := [], frameIndex := r.frameIndex + 1, final := true })
  /-- A final frame is opened, but it is not empty or not the end. -/
  | continued {ciphertext plaintext : Bytes} (rest : Bytes)
      (hopen : C.openMessage r.key r.frameIndex
        (archiveFrameAAD r.headerHash r.frameIndex .final) ciphertext = some plaintext) :
      Next C r (false, { r with rest, frameIndex := r.frameIndex + 1 })

theorem readFull_eq_some {front : Bytes} (h : readFull n stream = some (front, rest)) :
    stream = front ++ rest ∧ front.length = n := by
  obtain ⟨hle, h⟩ := ite_none_right_eq_some.mp h
  obtain ⟨rfl, rfl⟩ := Prod.mk.inj (Option.some.inj h)
  exact ⟨(take_append_drop ..).symm, length_take_of_le hle⟩

theorem readFull_append {front : Bytes} {rest : Bytes} (h : front.length = n) :
    readFull n (front ++ rest) = some (front, rest) := by
  subst h
  rw [readFull, if_pos (by rw [length_append]; omega), take_left, drop_left]

theorem frameType_byte {b : UInt8} (h : frameType? b = some frameType) : frameType.byte = b := by
  unfold frameType? at h
  split_ifs at h with hb hb <;> cases h <;> exact hb.symm

/-- A frame is what its header and its ciphertext say. -/
theorem frameBytes_of_readFull {frameHeader rest' : Bytes}
    (hheader : readFull 5 stream = some (frameHeader, rest))
    (htype : frameType? (frameHeader.headD 0) = some frameType)
    (hcipher : readFull (uint32 frameHeader.tail) rest = some (ciphertext, rest')) :
    stream = frameBytes frameType ciphertext ++ rest' := by
  obtain ⟨rfl, hlen⟩ := readFull_eq_some hheader
  obtain ⟨rfl, hcipherLen⟩ := readFull_eq_some hcipher
  cases frameHeader with
  | nil => cases hlen
  | cons b lenBytes =>
    have hbyte := frameType_byte htype
    have hbytes : putUint32 ciphertext.length = lenBytes := by
      rw [hcipherLen]
      exact putUint32_uint32 (succ.inj hlen)
    rw [frameBytes, hbyte, hbytes, cons_append, cons_append, append_assoc]
    rfl

theorem next (C : Crypto Key) (r : Reader Key) : Next C r (readNextFrame C r) := by
  fun_cases readNextFrame C r with
  | case6 _ _ hheader _ _ _ _ _ hcipher _ _ _ htype hopen =>
    exact .data (frameBytes_of_readFull hheader htype hcipher) hopen
  | case7 _ _ _ _ _ _ _ _ _ _ _ _ _ _ hopen => exact .continued _ hopen
  | case8 _ _ _ _ _ _ _ _ _ _ _ _ _ _ _ hopen => exact .continued _ hopen
  | case9 _ _ hheader _ _ _ _ rest hcipher _ plaintext _ hplain hempty htype hopen =>
    have hrest := frameBytes_of_readFull hheader htype hcipher
    obtain rfl : plaintext = [] := by simpa using hplain
    obtain rfl : rest = [] := by simpa using hempty
    rw [append_nil] at hrest
    exact .ended hrest hopen
  | _ => exact .refused _

/-! ### Any stream -/

variable {key : Key} {got : Bytes} {size : Nat}

/-- Opening a message shows which one it was. -/
theorem opened (hi : Ideal C header key sent) {k : Key} {hash : Bytes}
    {plaintext : Bytes} (hlen : hash.length = 32)
    (hopen : C.openMessage k n (archiveFrameAAD hash n frameType) ciphertext = some plaintext) :
    hash = C.sum256 header ∧ sent[n]? = some (frameType, plaintext) ∧ ciphertext = C.sealMessage n
        (archiveFrameAAD (C.sum256 header) n frameType) plaintext := by
  obtain ⟨-, frameType', hsent, haad, hcipher⟩ := hi.only hopen
  obtain ⟨rfl, rfl⟩ := archiveFrameAAD_inj (hlen.trans (C.length_sum256 header).symm) haad
  exact ⟨rfl, hsent, hcipher⟩

/-- What has been delivered and what is buffered is the plaintext of the
first messages. -/
structure Faithful (sent : List (FrameType × Bytes)) (got : Bytes) (r : Reader Key) : Prop where
  hash : r.headerHash.length = 32
  buffered : payload (sent.take r.frameIndex) = got ++ r.plaintext

theorem reads_cons {sizes : List Nat} (r : Reader Key) :
    (reads C (size :: sizes) r).1 = (read C r size).1 :: (reads C sizes (read C r size).2).1 := rfl

theorem delivered_cons (result : ReadResult) (results : List ReadResult) :
    delivered (result :: results) = result.delivered ++ delivered results := rfl

theorem read_zero {C : Crypto Key} {r : Reader Key} : read C r 0 = (.bytes [], r) := rfl

section

variable (hi : Ideal C header key sent) (hs : Sent data sent)
include hi hs

section

variable (h : Faithful sent got r)
include h

theorem Faithful.next (hempty : r.plaintext = []) :
    Faithful sent got (readNextFrame C r).2 := by
  have hbuffered : ∀ {frameType p}, sent[r.frameIndex]? = some (frameType, p) →
      payload (sent.take (r.frameIndex + 1)) = got ++ p := by
    intro frameType p hsent
    rw [payload_take_succ hsent, h.buffered, hempty, append_nil]
  have hstep := Archive.next C r
  generalize readNextFrame C r = result at hstep
  cases hstep with
  | refused rest => exact ⟨h.hash, h.buffered⟩
  | data hrest hopen => exact ⟨h.hash, hbuffered (opened hi h.hash hopen).2.1⟩
  | ended hrest hopen =>
    exact ⟨h.hash, (hbuffered (opened hi h.hash hopen).2.1).trans (congrArg _ hempty.symm)⟩
  | continued rest hopen =>
    obtain ⟨-, hsent, -⟩ := opened hi h.hash hopen
    obtain ⟨rfl, -⟩ := hs.final hsent
    exact ⟨h.hash, (hbuffered hsent).trans (congrArg _ hempty.symm)⟩

theorem Faithful.fill (n : Nat) : Faithful sent got (fill C n r).2 := by
  fun_induction Archive.fill C n r with
  | case4 r n hempty _ r' heq =>
    have hnext := h.next hi hs (by simpa using hempty)
    rwa [heq] at hnext
  | case5 r n hempty _ r' heq ih =>
    have hnext := h.next hi hs (by simpa using hempty)
    rw [heq] at hnext
    exact ih hnext
  | _ => exact h

theorem Faithful.read (size : Nat) :
    Faithful sent (got ++ (read C r size).1.delivered) (read C r size).2 := by
  have hfill := h.fill hi hs (r.rest.length + 1)
  fun_cases Archive.read C r size with
  | case1 =>
    refine ⟨h.hash, ?_⟩
    rw [h.buffered]
    exact congrArg (· ++ _) (append_nil got).symm
  | case2 _ _ heq =>
    rw [heq] at hfill
    refine ⟨hfill.hash, hfill.buffered.trans ?_⟩
    show _ = got ++ take size _ ++ drop size _
    rw [append_assoc, take_append_drop]
  | case3 _ _ heq | case4 _ _ heq =>
    rw [heq] at hfill
    exact (append_nil got).symm ▸ hfill

/-- Whatever the stream is, the bytes that are delivered are the first bytes
that were written. -/
theorem Faithful.reads (sizes : List Nat) :
    got ++ delivered (reads C sizes r).1 <+: data := by
  induction sizes generalizing r got with
  | nil =>
    have htake : payload (sent.take r.frameIndex) <+: payload sent := by
      conv_rhs => rw [← take_append_drop r.frameIndex sent]
      rw [payload, payload, flatMap_append]
      exact prefix_append ..
    rw [hs.payload_eq, h.buffered] at htake
    show got ++ [] <+: data
    rw [append_nil]
    exact (prefix_append ..).trans htake
  | cons size sizes ih =>
    have hread := ih (h.read hi hs size)
    rwa [append_assoc] at hread

end

/-! ### A clean end -/

omit hi hs in
/-- As long as there was no error, the stream is the header, the frames that
have been read and what is left. -/
structure Genuine (C : Crypto Key) (header : Bytes)
    (sent : List (FrameType × Bytes)) (stream : Bytes) (r : Reader Key) :
    Prop where
  hash : r.headerHash.length = 32
  known : 0 < r.frameIndex → r.headerHash = C.sum256 header
  final : r.final = true → r.rest = [] ∧ r.frameIndex = sent.length
  stream : ∃ header', r.headerHash = C.sum256 header' ∧
    stream = archivePrelude header' ++ (framesFrom C (C.sum256 header) 0
      (sent.take r.frameIndex) ++ r.rest)

section

variable (h : Genuine C header sent stream r)
include h

theorem Genuine.next (hfinal : r.final = false)
    (hr : readNextFrame C r = (true, r')) : Genuine C header sent stream r' := by
  have hstep := Archive.next C r
  rw [hr] at hstep
  obtain ⟨header', hheader', hstream⟩ := h.stream
  cases hstep with
  | data hrest hopen =>
    obtain ⟨hknown, hsent, hcipher⟩ := opened hi h.hash hopen
    refine ⟨h.hash, fun _ => hknown, fun hf => (nomatch hfinal.symm.trans hf),
      header', hheader', ?_⟩
    rw [hstream, hrest, hcipher, framesFrom_take_succ _ hsent, append_assoc (framesFrom C _ 0 _)]
  | ended hrest hopen =>
    obtain ⟨hknown, hsent, hcipher⟩ := opened hi h.hash hopen
    refine ⟨h.hash, fun _ => hknown, fun _ => ⟨rfl, (hs.final hsent).2⟩, header', hheader', ?_⟩
    rw [hstream, hrest, hcipher, framesFrom_take_succ _ hsent, append_nil]

theorem Genuine.fill {outcome : Outcome} (hr : fill C n r = (outcome, r')) (hne : outcome ≠ .error)
    : Genuine C header sent stream r' ∧ (outcome = .eof → r'.final = true) := by
  revert hr
  fun_induction Archive.fill C n r with
  | case2 =>
    rintro ⟨⟩
    exact ⟨h, nofun⟩
  | case3 r n _ hfinal =>
    rintro ⟨⟩
    exact ⟨h, fun _ => hfinal⟩
  | case5 r n _ hfinal r₁ heq ih =>
    rw [Bool.not_eq_true] at hfinal
    exact ih (h.next hi hs hfinal heq)
  | _ =>
    rintro ⟨⟩
    exact absurd rfl hne

theorem Genuine.read {result : ReadResult}
    (hr : read C r size = (result, r')) (hne : result ≠ .error) :
    Genuine C header sent stream r' ∧ (result = .eof → r'.final = true) := by
  revert hr
  fun_cases Archive.read C r size with
  | case1 =>
    rintro ⟨⟩
    exact ⟨h, nofun⟩
  | case2 _ _ heq =>
    obtain ⟨hfill, -⟩ := h.fill hi hs heq nofun
    rintro ⟨⟩
    exact ⟨⟨hfill.hash, hfill.known, hfill.final, hfill.stream⟩, nofun⟩
  | case3 _ _ heq =>
    rintro ⟨⟩
    obtain ⟨hfill, heof⟩ := h.fill hi hs heq nofun
    exact ⟨hfill, fun _ => heof rfl⟩
  | case4 =>
    rintro ⟨⟩
    exact absurd rfl hne

/-- A reader that has come to its end without an error has read what was
written. -/
theorem Genuine.eq_of_final (hfinal : r.final = true) :
    stream = archivePrelude header ++ framesFrom C (C.sum256 header) 0 sent := by
  obtain ⟨header', hheader', hstream⟩ := h.stream
  obtain ⟨hrest, hindex⟩ := h.final hfinal
  have hsame : header' = header := by
    refine hi.second_preimage header' ?_
    rw [← hheader']
    exact h.known (hindex ▸ hs.length_pos)
  rw [hstream, hsame, hrest, hindex, take_length, append_nil]

theorem Genuine.reads {sizes : List Nat} (heof : ReportsCleanEOF (reads C sizes r).1) :
    stream = archivePrelude header ++ framesFrom C (C.sum256 header) 0 sent := by
  induction sizes generalizing r with
  | nil =>
    obtain ⟨before, after, heq, -⟩ := heof
    exact absurd heq (by simp [Archive.reads])
  | cons size sizes ih =>
    obtain ⟨before, after, heq, hbefore⟩ := heof
    rw [reads_cons] at heq
    obtain ⟨result, r', hr⟩ : ∃ result r', Archive.read C r size = (result, r') := ⟨_, _, rfl⟩
    rw [hr] at heq
    cases before with
    | nil =>
      obtain ⟨rfl, -⟩ := cons.inj heq
      obtain ⟨hread, hfinal⟩ := h.read hi hs hr nofun
      exact hread.eq_of_final hi hs (hfinal rfl)
    | cons first before =>
      obtain ⟨rfl, htail⟩ := cons.inj heq
      rw [mem_cons, not_or] at hbefore
      obtain ⟨hread, -⟩ := h.read hi hs hr (Ne.symm hbefore.1)
      exact ih hread ⟨before, after, htail, hbefore.2⟩

end

/-! ### The header -/

omit hi hs in
/-- What is known of a reader that was made. -/
theorem newEncryptedArchiveReader_spec (h : newEncryptedArchiveReader C stream = some r) :
    r.frameIndex = 0 ∧ r.plaintext = [] ∧ r.final = false ∧
      ∃ header', r.headerHash = C.sum256 header' ∧ stream = archivePrelude header' ++ r.rest := by
  obtain ⟨⟨magic, stream₁⟩, hmagic, h⟩ := bind_eq_some_iff.mp h
  obtain ⟨hsame, h⟩ := ite_none_left_eq_some.mp h
  obtain ⟨⟨lenBytes, stream₂⟩, hlen, h⟩ := bind_eq_some_iff.mp h
  obtain ⟨-, h⟩ := ite_none_left_eq_some.mp h
  obtain ⟨⟨header', rest⟩, hheader, h⟩ := bind_eq_some_iff.mp h
  obtain ⟨key, -, rfl⟩ := map_eq_some_iff.mp h
  obtain ⟨rfl, -⟩ := readFull_eq_some hmagic
  obtain ⟨rfl, hfour⟩ := readFull_eq_some hlen
  obtain ⟨rfl, hcount⟩ := readFull_eq_some hheader
  refine ⟨rfl, rfl, rfl, header', rfl, ?_⟩
  rw [not_not.mp hsame, archivePrelude, hcount, putUint32_uint32 hfour, append_assoc, append_assoc]

omit hs in
theorem newEncryptedArchiveReader_prelude (rest : Bytes) :
    newEncryptedArchiveReader C (archivePrelude header ++ rest) =
      some ⟨rest, key, C.sum256 header, 0, [], false⟩ := by
  have hlt : header.length < 256 ^ 4 := lt_of_le_of_lt hi.header_le (by decide)
  have hcount := uint32_putUint32 hlt
  have hpos := hi.header_pos
  have hle := hi.header_le
  rw [newEncryptedArchiveReader, archivePrelude, append_assoc, readFull_append rfl, bind_some]
  dsimp only
  rw [if_neg (not_not.mpr rfl), append_assoc, readFull_append (length_putUint32), bind_some]
  rw [hcount, if_neg (by omega), readFull_append rfl, bind_some]
  rw [hi.decode]
  rfl

/-! ### The stream that was written -/

omit hi hs in
/-- A frame at the head of the stream that the recipient opens. -/
theorem readNextFrame_frame (hrest : r.rest = frameBytes frameType ciphertext ++ rest)
    (hlen : ciphertext.length ≤ maxEncryptedArchiveFrameSize)
    (hopen : C.openMessage r.key r.frameIndex
      (archiveFrameAAD r.headerHash r.frameIndex frameType) ciphertext =
        some p) (hfinal : frameType = .final → p = [] ∧ rest = []) :
    readNextFrame C r = (true, match frameType with
      | .data => { r with
          rest, frameIndex := r.frameIndex + 1, plaintext := p }
      | .final => { r with
          rest, frameIndex := r.frameIndex + 1, final := true }) := by
  have hheader : readFull 5 r.rest = some (frameType.byte :: putUint32 ciphertext.length,
        ciphertext ++ rest) := by
    rw [hrest, frameBytes, cons_append, append_assoc, ← cons_append]
    exact readFull_append (congrArg succ (length_putUint32))
  have hlt : ciphertext.length < 256 ^ 4 := lt_of_le_of_lt hlen (by decide)
  have htype : frameType? frameType.byte = some frameType := by
    cases frameType <;> rfl
  have hcount : uint32 (frameType.byte :: putUint32 ciphertext.length).tail =
      ciphertext.length := uint32_putUint32 hlt
  have hcipher : readFull ciphertext.length (ciphertext ++ rest) =
      some (ciphertext, rest) := readFull_append rfl
  have hsize : ¬maxEncryptedArchiveFrameSize < ciphertext.length := by omega
  unfold readNextFrame
  rw [hheader]
  dsimp only [headD_cons]
  rw [htype, hcount]
  dsimp only
  rw [if_neg hsize, hcipher]
  dsimp only
  rw [hopen]
  cases frameType with
  | data => rfl
  | final =>
    obtain ⟨rfl, rfl⟩ := hfinal rfl
    rfl

omit hi hs in
/-- The reader stands in front of the frames that are not yet read. -/
structure OnTrack (C : Crypto Key) (header : Bytes) (key : Key)
    (sent : List (FrameType × Bytes)) (r : Reader Key) : Prop where
  key : r.key = key
  hash : r.headerHash = C.sum256 header
  rest : r.rest = framesFrom C (C.sum256 header) r.frameIndex (sent.drop r.frameIndex)
  final : if r.final then r.frameIndex = sent.length else r.frameIndex < sent.length

section

variable (h : OnTrack C header key sent r)
include h

/-- One frame further. -/
theorem OnTrack.next (hfinal : r.final = false) :
    ∃ r', readNextFrame C r = (true, r') ∧ OnTrack C header key sent r' ∧
      ((r'.final = true ∧ r'.plaintext = r.plaintext) ∨ r'.plaintext ≠ []) := by
  have hlt : r.frameIndex < sent.length := by
    have := h.final
    rwa [hfinal] at this
  obtain ⟨⟨frameType, p⟩, hsent⟩ : ∃ m, sent[r.frameIndex]? = some m :=
    ⟨_, getElem?_eq_getElem hlt⟩
  have hdrop : sent.drop r.frameIndex = (frameType, p) :: sent.drop (r.frameIndex + 1) := by
    rw [drop_eq_getElem?_toList_append, hsent]
    rfl
  have hrest := h.rest
  rw [hdrop, framesFrom] at hrest
  have hopen : C.openMessage r.key r.frameIndex
      (archiveFrameAAD r.headerHash r.frameIndex frameType)
      (C.sealMessage r.frameIndex (archiveFrameAAD (C.sum256 header)
        r.frameIndex frameType) p) = some p := by
    rw [h.key, h.hash]
    exact hi.opens hsent
  have hlen : (C.sealMessage r.frameIndex (archiveFrameAAD (C.sum256 header)
      r.frameIndex frameType) p).length ≤ maxEncryptedArchiveFrameSize := by
    rw [C.length_sealMessage]
    cases frameType with
    | data =>
      have := (hs.chunk hsent).2.1
      show p.length + 16 ≤ encryptedArchiveChunkSize + 4096
      omega
    | final =>
      rw [(hs.final hsent).1]
      decide
  have hlast : frameType = .final → p = [] ∧ framesFrom C (C.sum256 header) (r.frameIndex + 1)
        (sent.drop (r.frameIndex + 1)) = [] := by
    rintro rfl
    obtain ⟨hnil, hend⟩ := hs.final hsent
    refine ⟨hnil, ?_⟩
    rw [hend, drop_length]
    rfl
  refine ⟨_, readNextFrame_frame hrest hlen hopen hlast, ?_⟩
  cases frameType with
  | data =>
    refine ⟨⟨h.key, h.hash, rfl, ?_⟩, .inr (hs.chunk hsent).1⟩
    rw [hfinal]
    exact (hs.chunk hsent).2.2
  | final => exact ⟨⟨h.key, h.hash, rfl, (hs.final hsent).2⟩, .inl ⟨rfl, rfl⟩⟩

/-- The loop of `Read` finds bytes, or the end. -/
theorem OnTrack.fill :
    ∃ r', OnTrack C header key sent r' ∧
      ((fill C (r.rest.length + 1) r = (.ready, r') ∧ r'.plaintext ≠ []) ∨
        (fill C (r.rest.length + 1) r = (.eof, r') ∧ r'.plaintext = [] ∧ r'.final = true)) := by
  by_cases hplain : r.plaintext = []
  · cases hfinal : r.final with
    | true =>
      refine ⟨r, h, .inr ⟨?_, hplain, hfinal⟩⟩
      rw [Archive.fill, hplain, hfinal]
      rfl
    | false =>
      obtain ⟨r', hnext, hr', hcases⟩ := h.next hi hs hfinal
      obtain ⟨n, hn⟩ : ∃ n, r.rest.length = n + 1 := by
        refine exists_eq_add_one_of_ne_zero fun hzero => ?_
        have hnone : readFull 5 r.rest = none := if_neg (by omega)
        rw [readNextFrame, hnone] at hnext
        cases hnext
      have hfirst : Archive.fill C (r.rest.length + 1) r = Archive.fill C (n + 1) r' := by
        rw [hn, Archive.fill, hplain, hfinal, hnext]
        rfl
      refine ⟨r', hr', ?_⟩
      rw [hfirst, Archive.fill]
      rcases hcases with ⟨hend, hsame⟩ | hne
      · rw [hplain] at hsame
        rw [hsame, hend]
        exact .inr ⟨rfl, rfl, rfl⟩
      · rw [if_pos (by simpa using hne)]
        exact .inl ⟨rfl, hne⟩
  · refine ⟨r, h, .inl ⟨?_, hplain⟩⟩
    rw [Archive.fill, if_pos (by simpa using hplain)]

theorem OnTrack.read (hsize : size ≠ 0) :
    OnTrack C header key sent (read C r size).2 ∧
      ((∃ p, p ≠ [] ∧ (read C r size).1 = .bytes p) ∨
        ((read C r size).1 = .eof ∧ (read C r size).2.plaintext = [] ∧
          (read C r size).2.final = true)) := by
  obtain ⟨r', hr', hcases⟩ := h.fill hi hs
  rw [Archive.read, if_neg hsize]
  rcases hcases with ⟨hfill, hne⟩ | ⟨hfill, hend⟩
  · rw [hfill]
    refine ⟨⟨hr'.key, hr'.hash, hr'.rest, hr'.final⟩, .inl ⟨_, ?_, rfl⟩⟩
    intro htake
    rw [take_eq_nil_iff] at htake
    exact htake.elim hsize hne
  · rw [hfill]
    exact ⟨hr', .inr ⟨rfl, hend⟩⟩

/-- What reading the stream that was written gives. -/
theorem OnTrack.reads (hf : Faithful sent got r) (sizes : List Nat) :
    .error ∉ (reads C sizes r).1 ∧
      (.eof ∈ (reads C sizes r).1 → got ++ delivered (reads C sizes r).1 = data) ∧
      (data.length < got.length + sizes.countP (0 < ·) → .eof ∈ (reads C sizes r).1) := by
  have hprefix := hf.reads hi hs sizes
  induction sizes generalizing r got with
  | nil =>
    refine ⟨not_mem_nil, nofun, fun hlt => ?_⟩
    have := hprefix.length_le
    rw [length_append] at this
    rw [countP_nil] at hlt
    omega
  | cons size sizes ih =>
    have hread := hf.read hi hs size
    have hrest := hread.reads hi hs sizes
    rw [reads_cons, delivered_cons, ← append_assoc]
    rcases Nat.eq_zero_or_pos size with rfl | hpos
    · obtain ⟨herror, heof, hends⟩ := ih (read_zero ▸ h) hread hrest
      rw [read_zero] at herror heof hends ⊢
      refine ⟨?_, fun hmem => heof ?_, fun hlt => ?_⟩
      · simpa using herror
      · simpa using hmem
      · refine mem_cons_of_mem _ (hends ?_)
        simpa [ReadResult.delivered] using hlt
    obtain ⟨hr', hcases⟩ := h.read hi hs (ne_of_gt hpos)
    obtain ⟨herror, heof, hends⟩ := ih hr' hread hrest
    rcases hcases with ⟨p, hp, hresult⟩ | ⟨hresult, hplain, hfinal⟩
    · rw [hresult] at heof hends ⊢
      refine ⟨by simpa using herror, fun hmem => heof (by simpa using hmem),
        fun hlt => mem_cons_of_mem _ (hends ?_)⟩
      have hp := length_pos_iff.mpr hp
      rw [countP_cons, if_pos (by simpa using hpos)] at hlt
      rw [length_append]
      show _ < got.length + p.length + _
      omega
    · -- nothing is left to be delivered after the end
      have hall := hread.buffered
      have hlast := hr'.final
      rw [hfinal] at hlast
      rw [hlast, take_length, hs.payload_eq, hplain, append_nil] at hall
      rw [← hall] at hrest ⊢
      rw [hresult]
      refine ⟨by simpa using herror, fun _ => ?_, fun _ => mem_cons_self⟩
      exact hrest.eq_of_length_le (by rw [length_append]; omega)

end

end

/-! ### The envelope -/

/-- An AEAD that knows what was sealed. -/
def lookup (header : Bytes) (sent : List (FrameType × Bytes)) : Crypto Unit where
  sum256 bytes := replicate 32 (if bytes = header then 1 else 0)
  length_sum256 _ := length_replicate
  sealMessage _ _ plaintext := plaintext ++ replicate 16 0
  length_sealMessage _ _ _ := by
    rw [length_append, length_replicate]
  decodeHeader _ := some ()
  openMessage _ n aad ciphertext := (sent[n]?).bind fun message =>
    if aad = archiveFrameAAD (replicate 32 1) n message.1 ∧
        ciphertext = message.2 ++ replicate 16 0 then some message.2
    else none

theorem ideal_lookup {header : Bytes} (hpos : 0 < header.length)
    (hle : header.length ≤ maxEncryptedArchiveHeaderLen)
    : Ideal (lookup header sent) header () sent := by
  have hsum : (lookup header sent).sum256 header = replicate 32 1 := by
    simp [lookup]
  refine ⟨hpos, hle, rfl, fun bytes hbytes => ?_, fun hsent => ?_, fun hopen => ⟨rfl, ?_⟩⟩
  · rw [hsum] at hbytes
    by_contra hne
    simp [lookup, hne] at hbytes
  · rw [hsum]
    simp [lookup, hsent]
  · obtain ⟨⟨frameType, plaintext⟩, hsent, h⟩ := bind_eq_some_iff.mp hopen
    obtain ⟨⟨haad, hcipher⟩, h⟩ := ite_none_right_eq_some.mp h
    obtain rfl := Option.some.inj h
    rw [hsum]
    exact ⟨frameType, hsent, haad, hcipher⟩

end Dawgs.Ref.Archive
