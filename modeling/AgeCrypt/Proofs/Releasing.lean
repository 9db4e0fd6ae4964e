import AgeCrypt.Proofs.Armoring
import AgeCrypt.Proofs.Calls
import AgeCrypt.Proofs.Decrypting
import AgeCrypt.Proofs.HeaderCodec

/-!
# What decryption releases

Decryption writes a chunk of the payload only when the chunk is authentic: full ones that open as chunks before the last
one, and a last one behind which nothing follows (`Chunk.Releases`). Main statement: whatever fails, be it the header, the
source, a chunk or the output, the output holds what comes first in these chunks, and nothing at all if decryption fails
before the payload (`decrypt_releases`). An output that takes everything holds all of them.
-/

namespace AgeCrypt

namespace Chunk

/-- The chunk with a given number of an encrypted payload, as it is written. -/
def sealedAt (sealed : Bytes) (number : Nat) : Bytes := (sealed.drop (number * encryptedSize)).take encryptedSize

/-- The chunk with a number is a full one, which opens as one before the last to `chunk` and has a number behind it. -/
structure IsInner (cipher : Cipher) (sealed : Bytes) (number : Nat) (chunk : Bytes) : Prop where
  full : (number + 1) * encryptedSize ≤ sealed.length
  opens : cipher.decrypt (ChunkNonce.toBlock ⟨number, false⟩) (sealedAt sealed number) = some chunk
  numbered : number + 1 ≠ ChunkNonce.range

/-- The chunk with a number opens as the last one to `chunk`, which is empty only as the first one, and nothing follows:
    neither more bytes nor a failure. A full chunk is tried as the last one only if it does not open as one before. -/
structure IsFinal (cipher : Cipher) (stop? : Option ChannelError) (sealed : Bytes) (number : Nat) (chunk : Bytes) : Prop where
  opens : cipher.decrypt (ChunkNonce.toBlock ⟨number, true⟩) (sealedAt sealed number) = some chunk
  alone : sealed.length ≤ (number + 1) * encryptedSize
  clean : stop? = none
  first : chunk = [] → number = 0
  only : (number + 1) * encryptedSize ≤ sealed.length →
    cipher.decrypt (ChunkNonce.toBlock ⟨number, false⟩) (sealedAt sealed number) = none

/-- From the chunk with number `counter` on, a payload behind which comes the failure `stop?`, if there is one, consists of
    the chunks `inner`, and behind them there is the last one, or one that is authentic in neither way. -/
structure Releases (cipher : Cipher) (stop? : Option ChannelError) (sealed : Bytes) (counter : Nat) (inner : List Bytes)
    (final? : Option Bytes) : Prop where
  opened : ∀ i chunk, inner[i]? = some chunk → IsInner cipher sealed (counter + i) chunk
  final : ∀ chunk, final? = some chunk → IsFinal cipher stop? sealed (counter + inner.length) chunk
  rejected : final? = none → ∀ chunk, ¬ IsInner cipher sealed (counter + inner.length) chunk ∧
    ¬ IsFinal cipher stop? sealed (counter + inner.length) chunk

section
variable {cipher : Cipher} {stop? : Option ChannelError} {sealed : Bytes} {number : Nat} {chunk : Bytes}

theorem full_iff : encryptedSize ≤ (sealed.drop (number * encryptedSize)).length ↔
    (number + 1) * encryptedSize ≤ sealed.length := by
  rw [List.length_drop, Nat.add_one_mul]
  have : 0 < encryptedSize := by decide
  omega

theorem next_drop_false_iff : next cipher stop? number (sealed.drop (number * encryptedSize)) = .ok (chunk, false) ↔
    IsInner cipher sealed number chunk := by
  rw [next_eq_ok_false_iff, full_iff]
  constructor
  · rintro ⟨full, numbered, opens⟩
    exact ⟨full, opens, numbered⟩
  · rintro ⟨full, opens, numbered⟩
    exact ⟨full, numbered, opens⟩

theorem next_drop_true_iff : next cipher stop? number (sealed.drop (number * encryptedSize)) = .ok (chunk, true) ↔
    IsFinal cipher stop? sealed number chunk := by
  have alone_iff : (sealed.drop (number * encryptedSize)).length ≤ encryptedSize ↔
      sealed.length ≤ (number + 1) * encryptedSize := by
    rw [List.length_drop, Nat.add_one_mul]
    omega
  have whole : (sealed.drop (number * encryptedSize)).length ≤ encryptedSize →
      sealedAt sealed number = sealed.drop (number * encryptedSize) := List.take_of_length_le
  rw [next_eq_ok_true_iff, full_iff]
  constructor
  · rintro ⟨clean, alone, first, opens, only⟩
    rw [← whole alone] at opens only
    exact ⟨opens, alone_iff.1 alone, clean, first, only⟩
  · rintro ⟨opens, alone, clean, first, only⟩
    rw [whole (alone_iff.2 alone)] at opens only
    exact ⟨clean, alone_iff.2 alone, first, opens, only⟩

theorem not_authentic_of_error {e : ChannelError}
    (rejects : next cipher stop? number (sealed.drop (number * encryptedSize)) = .error e) (chunk : Bytes) :
    ¬ IsInner cipher sealed number chunk ∧ ¬ IsFinal cipher stop? sealed number chunk := by
  constructor
  · intro inner
    rw [next_drop_false_iff.2 inner] at rejects
    cases rejects
  · intro final
    rw [next_drop_true_iff.2 final] at rejects
    cases rejects

/-- The chunks that a payload yields are the authentic ones, and it ends without a failure only behind the last one. -/
theorem releases_openFrom (cipher : Cipher) (stop? : Option ChannelError) (sealed : Bytes) (counter : Nat) :
    ∃ inner final?, Releases cipher stop? sealed counter inner final? ∧
      (openFrom cipher stop? counter (sealed.drop (counter * encryptedSize))).1 = inner ++ final?.toList ∧
      ((openFrom cipher stop? counter (sealed.drop (counter * encryptedSize))).2 = none ↔ final?.isSome) := by
  induction size : sealed.length - counter * encryptedSize using Nat.strongRecOn generalizing counter with | _ m ih => ?_
  cases opens : next cipher stop? counter (sealed.drop (counter * encryptedSize)) with
  | error e =>
    rw [openFrom_of_error opens]
    exact ⟨[], none, ⟨by simp, by simp, fun _ => not_authentic_of_error opens⟩, rfl, by simp⟩
  | ok pair =>
    obtain ⟨chunk, last⟩ := pair
    cases last with
    | true =>
      rw [openFrom_of_last opens]
      refine ⟨[], some chunk, ⟨by simp, fun final same => ?_, by simp⟩, rfl, by simp⟩
      cases same
      exact next_drop_true_iff.1 opens
    | false =>
      have accepted := next_drop_false_iff.1 opens
      have fewer : sealed.length - (counter + 1) * encryptedSize < m := by
        have full := accepted.full
        have positive : 0 < encryptedSize := by decide
        rw [Nat.add_one_mul] at full ⊢
        omega
      obtain ⟨inner, final?, releases, chunks, ends⟩ := ih _ fewer (counter + 1) rfl
      have behind : counter + (chunk :: inner).length = counter + 1 + inner.length := by
        rw [List.length_cons, Nat.add_right_comm, Nat.add_assoc]
      rw [openFrom_of_inner opens, List.drop_drop, ← Nat.add_one_mul]
      generalize openFrom cipher stop? (counter + 1) (sealed.drop ((counter + 1) * encryptedSize)) = released at chunks ends ⊢
      obtain ⟨rest, ending?⟩ := released
      refine ⟨chunk :: inner, final?, ⟨?_, ?_, ?_⟩, ?_, ends⟩
      · intro i other there
        cases i with
        | zero =>
          cases there
          exact accepted
        | succ i =>
          rw [← Nat.add_assoc, Nat.add_right_comm]
          exact releases.opened i other there
      · rw [behind]
        exact releases.final
      · rw [behind]
        exact releases.rejected
      · exact congrArg (chunk :: ·) chunks

/-- A payload that is one short chunk is released if it opens as the last one. -/
theorem eq_of_releases_short (short : sealed.length < encryptedSize)
    (opens : cipher.decrypt (ChunkNonce.toBlock ⟨0, true⟩) sealed = some chunk) {inner : List Bytes} {final? : Option Bytes}
    (releases : Releases cipher none sealed 0 inner final?) : inner = [] ∧ final? = some chunk := by
  have whole : sealedAt sealed 0 = sealed := by
    rw [sealedAt, Nat.zero_mul, List.drop_zero, List.take_of_length_le (Nat.le_of_lt short)]
  have beyond : ¬ (0 + 1) * encryptedSize ≤ sealed.length := by
    rw [Nat.zero_add, Nat.one_mul]
    exact Nat.not_le.2 short
  obtain rfl : inner = [] := by
    cases inner with
    | nil => rfl
    | cons first rest => exact absurd (releases.opened 0 first rfl).full beyond
  refine ⟨rfl, ?_⟩
  cases final? with
  | some final =>
    have same := (releases.final final rfl).opens
    change cipher.decrypt _ (sealedAt sealed 0) = _ at same
    rw [whole] at same
    exact same.symm.trans opens
  | none =>
    have final : IsFinal cipher none sealed 0 chunk := by
      refine ⟨by rw [whole, opens], ?_, rfl, fun _ => rfl, fun full => absurd full beyond⟩
      rw [Nat.zero_add, Nat.one_mul]
      exact Nat.le_of_lt short
    exact absurd final (releases.rejected rfl chunk).2

end

end Chunk

namespace Sink
variable {s t : Sink} {before : Bytes}

/-- Whatever a sink refuses, it records what comes first in the bytes that it is given. -/
theorem writeAll_within (holds : s.Recorded t before) (bs : Bytes) :
    ∃ part, part <+: bs ∧ s.Recorded (Writer.writeAll t bs).2 (before ++ part) ∧
      ((Writer.writeAll t bs).1 = .ok () → part = bs) := by
  fun_induction Writer.writeAll t bs generalizing before with
  | case1 t => exact ⟨[], List.prefix_rfl, by rwa [List.append_nil], fun _ => rfl⟩
  | case2 t bs some e t' step =>
    rw [eq_of_write_error step]
    exact ⟨[], List.nil_prefix, by rwa [List.append_nil], fun ok => by cases ok⟩
  | case3 t bs some t' step =>
    exact ⟨[], List.nil_prefix, s.records.write_ok holds step, fun ok => by cases ok⟩
  | case4 t bs some n t' step ih =>
    obtain ⟨part, start, behind, whole⟩ := ih (s.records.write_ok holds step)
    rw [List.append_assoc] at behind
    have cut := List.take_append_drop (n + 1) bs
    refine ⟨bs.take (n + 1) ++ part, ?_, behind, fun ok => ?_⟩
    · have longer := (List.prefix_append_right_inj (bs.take (n + 1))).2 start
      rwa [cut] at longer
    · rw [whole ok, cut]

theorem writeEach_within (holds : s.Recorded t before) (texts : List Bytes) :
    ∃ part, part <+: texts.flatten ∧ s.Recorded (Writer.writeEach t texts).2 (before ++ part) ∧
      ((Writer.writeEach t texts).1 = .ok () → part = texts.flatten) := by
  induction texts generalizing t before with
  | nil => exact ⟨[], List.prefix_rfl, by rwa [List.append_nil], fun _ => rfl⟩
  | cons bs texts ih =>
    obtain ⟨part, start, behind, whole⟩ := writeAll_within holds bs
    rw [Writer.writeEach, List.flatten_cons]
    cases step : Writer.writeAll t bs with | mk result t' => ?_
    rw [step] at behind whole
    cases result with
    | error e => exact ⟨part, start.trans (List.prefix_append _ _), behind, fun ok => by cases ok⟩
    | ok _ =>
      obtain ⟨rest, start', behind', whole'⟩ := ih behind
      rw [whole rfl, List.append_assoc] at behind'
      refine ⟨bs ++ rest, (List.prefix_append_right_inj bs).2 start', behind', fun ok => ?_⟩
      rw [whole' ok]

/-- Parts that are written out get into a sink from the first one on, and all of them if that succeeds, or if the sink does
    not refuse any. -/
theorem writeOut_within (s : Sink) (parts : List Bytes) (ending? : Option ChannelError) :
    (∃ part, part <+: parts.flatten ∧ (Writer.writeOut s parts ending?).2.bytes = s.bytes ++ part) ∧
    ((Writer.writeOut s parts ending?).1 = .ok () →
      ending? = none ∧ (Writer.writeOut s parts ending?).2.bytes = s.bytes ++ parts.flatten) ∧
    ((Writer.writeEach s parts).1 = .ok () →
      (Writer.writeOut s parts ending?).2.bytes = s.bytes ++ parts.flatten ∧
        (ending? = none → (Writer.writeOut s parts ending?).1 = .ok ())) := by
  obtain ⟨part, start, ⟨bytes, _⟩, whole⟩ := writeEach_within s.recorded_refl parts
  rw [List.nil_append] at bytes
  unfold Writer.writeOut
  cases step : Writer.writeEach s parts with | mk result t => ?_
  rw [step] at bytes whole
  cases result with
  | error e =>
    refine ⟨⟨part, start, bytes⟩, ?_, ?_⟩
    · intro ok
      cases ok
    · intro ok
      cases ok
  | ok _ =>
    rw [whole rfl] at bytes
    refine ⟨⟨_, List.prefix_rfl, bytes⟩, ?_, ?_⟩
    · intro ok
      cases ending? with
      | none => exact ⟨rfl, bytes⟩
      | some e => cases ok
    · intro _
      refine ⟨bytes, fun clean => ?_⟩
      rw [clean]
      rfl

end Sink

namespace Source

/-- What a source hands out once its armor is removed, and the failure that comes behind it, if there is one. -/
def received (s : Source) : Bytes × Option ChannelError := Armor.unarmor s.stop? s.available

/-- The encrypted payload that a source hands out and the cipher under the key that is derived for it, if the header, the
    nonce, an identity and the MAC lead there. -/
def sealedPayload (s : Source) (identities : List Identity) : Except DecryptError (Cipher × Bytes) :=
  match LockedFile.take s.received.2 s.received.1 with
  | .error e => .error e
  | .ok locked =>
    match (LockedFile.tryFrom locked.header.recipients 0 [] identities).1 with
    | .error e => .error e
    | .ok key =>
      if locked.header.hasMac key then .ok (.chaCha20Poly1305 (key.payloadKey locked.nonce), locked.input)
      else .error .wrongMac

end Source

/-- A file that was written is taken back up to its payload. -/
theorem LockedFile.take_toBytes {header : Header} (writable : header.isWritable = true)
    (alone : header.passphraseAlone = true) (nonce : PayloadNonce) (sealed : Bytes) :
    take none (header.toBytes ++ (nonce.bytes ++ sealed)) = .ok ⟨header, nonce, sealed⟩ := by
  have holds := Buffered.holds_ofReader (Source.delivers_ofBytes (header.toBytes ++ (nonce.bytes ++ sealed)))
  obtain ⟨r, reads, left⟩ := Header.read_toBytes writable holds
  rcases @HeaderReading.readFrom_eq_takeFrom _ .version _ _ _ _ holds with
    ⟨header', rest, r', takes, reads', left'⟩ | ⟨e, r', _, fails⟩
  · rw [← Header.read, reads] at reads'
    cases reads'
    have whole := Buffered.drain_of_holds left
    rw [Buffered.drain_of_holds left'] at whole
    have enough : 16 ≤ (nonce.bytes ++ sealed).length := by
      rw [List.length_append, nonce.length_bytes]
      exact Nat.le_add_right 16 _
    rw [whole] at takes
    simp only [take, takes, alone, dif_pos enough, List.take_left' nonce.length_bytes, List.drop_left' nonce.length_bytes]
    rfl
  · rw [← Header.read, reads] at fails
    cases fails

/-- A source that hands out a file which is not armored leads to its payload. -/
theorem Source.sealedPayload_of_file {source : Source} {header : Header} {nonce : PayloadNonce} {sealed : Bytes}
    (file : source.available = header.toBytes ++ (nonce.bytes ++ sealed)) (whole : source.stop? = none)
    (writable : header.isWritable = true) (alone : header.passphraseAlone = true) {identities : List Identity} {key : FileKey}
    (opens : (LockedFile.tryFrom header.recipients 0 [] identities).1 = .ok key) (right : header.hasMac key = true) :
    source.received.2 = none ∧
      source.sealedPayload identities = .ok (.chaCha20Poly1305 (key.payloadKey nonce), sealed) := by
  have received : source.received = (header.toBytes ++ (nonce.bytes ++ sealed), none) := by
    rw [received, file, whole]
    exact unarmor_format .binary header _
  refine ⟨by rw [received], ?_⟩
  simp only [sealedPayload, received, LockedFile.take_toBytes writable alone, opens, if_pos right]

theorem flatten_flatMap_pieces (chunks : List Bytes) :
    (chunks.flatMap (pieces Reader.blockSize)).flatten = chunks.flatten := by
  induction chunks with
  | nil => rfl
  | cons chunk chunks ih =>
    rw [List.flatMap_cons, List.flatten_append, ih, flatten_pieces (by decide), List.flatten_cons]

/-- Decryption into a sink writes the chunks of the payload in blocks, if it gets to the payload. -/
theorem decrypt_eq_writeOut (identities : List Identity) {source : Source} (portions : source.portion? ≠ some 0)
    (sink : Sink) : ((decrypt identities source sink).result, (decrypt identities source sink).output) =
      match source.sealedPayload identities with
      | .error e => (.error e, sink)
      | .ok (cipher, sealed) =>
        let released := Chunk.openFrom cipher source.received.2 0 sealed
        let written := Writer.writeOut sink (released.1.flatMap (pieces Reader.blockSize)) released.2
        (written.1.mapError .channel, written.2) := by
  have received : decrypt identities source sink = decryptReceived identities source.received.2 source.received.1 sink :=
    decrypt_of_delivers (Source.delivers source portions) identities sink
  rw [received, decryptReceived, Source.sealedPayload]
  cases LockedFile.take source.received.2 source.received.1 with
  | error e => rfl
  | ok locked =>
    dsimp only
    cases LockedFile.tryFrom locked.header.recipients 0 [] identities with | mk found events => ?_
    cases found with
    | error e => rfl
    | ok key =>
      dsimp only
      by_cases right : locked.header.hasMac key = true
      · rw [if_pos right, if_pos right]
        dsimp only
        cases Writer.writeOut sink _ _ with | mk result written => ?_
        cases result with
        | error e => rfl
        | ok _ => rfl
      · rw [if_neg right, if_neg right]

/-- Decryption releases authentic plaintext only. If it fails before the payload, nothing is written. Otherwise the output
    holds at every moment what comes first in the chunks that are authentic, up to the first one that is not, and when
    decryption succeeds, these are all of the payload. An output that never refuses holds all of them in the end. -/
theorem decrypt_releases (identities : List Identity) (source : Source) (sink : Sink) (portions : source.portion? ≠ some 0) :
    (∀ e, source.sealedPayload identities = .error e →
      (decrypt identities source sink).result = .error e ∧ (decrypt identities source sink).output = sink) ∧
    ∀ cipher sealed, source.sealedPayload identities = .ok (cipher, sealed) →
      ∃ inner final?, Chunk.Releases cipher source.received.2 sealed 0 inner final? ∧
        (∀ t, Writer.Reaches t (decrypt identities source sink).output →
          t.bytes <+: sink.bytes ++ (inner.flatten ++ final?.getD [])) ∧
        ((decrypt identities source sink).result = .ok () → final?.isSome ∧
          (decrypt identities source sink).output.bytes = sink.bytes ++ (inner.flatten ++ final?.getD [])) ∧
        (sink.capacity? = none → sink.portion? ≠ some 0 →
          (decrypt identities source sink).output.bytes = sink.bytes ++ (inner.flatten ++ final?.getD []) ∧
            (final?.isSome → (decrypt identities source sink).result = .ok ())) := by
  have outcome := decrypt_eq_writeOut identities portions sink
  constructor
  · intro e fails
    rw [fails] at outcome
    exact ⟨congrArg Prod.fst outcome, congrArg Prod.snd outcome⟩
  · intro cipher sealed opens
    rw [opens] at outcome
    obtain ⟨result, output⟩ := Prod.mk.inj outcome
    obtain ⟨inner, final?, releases, chunks, ends⟩ := Chunk.releases_openFrom cipher source.received.2 sealed 0
    rw [Nat.zero_mul, List.drop_zero] at chunks ends
    have whole : ((Chunk.openFrom cipher source.received.2 0 sealed).1.flatMap (pieces Reader.blockSize)).flatten =
        inner.flatten ++ final?.getD [] := by
      rw [flatten_flatMap_pieces, chunks, List.flatten_append]
      cases final? with
      | none => rfl
      | some chunk => simp
    obtain ⟨⟨part, start, bytes⟩, succeeds, complete⟩ := sink.writeOut_within
      ((Chunk.openFrom cipher source.received.2 0 sealed).1.flatMap (pieces Reader.blockSize))
      (Chunk.openFrom cipher source.received.2 0 sealed).2
    rw [← output] at bytes succeeds complete
    rw [whole] at start succeeds complete
    refine ⟨inner, final?, releases, ?_, ?_, ?_⟩
    · intro t reaches
      refine (Sink.isPrefix_of_reaches reaches).trans ?_
      rw [bytes]
      exact (List.prefix_append_right_inj sink.bytes).2 start
    · intro ok
      rw [result] at ok
      obtain ⟨clean, all⟩ := succeeds (Chunk.mapError_eq_ok.1 ok)
      exact ⟨ends.1 clean, all⟩
    · intro endless portions
      obtain ⟨all, ok⟩ := complete ((sink.reliable portions endless).writeEach sink.recorded_refl _)
      refine ⟨all, fun final => ?_⟩
      rw [result, ok (ends.2 final)]
      rfl

/-- What was encrypted opens under the same key and nonce. -/
theorem Cipher.decrypt_of_encrypt (key : Block 32) (nonce : Block 12) (message : Bytes) :
    (chaCha20Poly1305 key).decrypt nonce ((chaCha20Poly1305 key).encrypt nonce message) = some message :=
  Aead.decrypt_eq_some_iff.2 rfl

/-- A file with one chunk, from a source that hands out a few bytes at a time, into a sink that takes one at a time. -/
theorem decrypt_releases_hi :
    let key : FileKey := .zeros 16
    let owner : Identity := { unwrap := fun _ => some (.ok key) }
    let header : Header := .sign key [⟨"tag", ["argument"], [7]⟩]
    let cipher : Cipher := .chaCha20Poly1305 (key.payloadKey (.zeros 16))
    let sealed := cipher.encrypt (ChunkNonce.toBlock ⟨0, true⟩) [104, 105]
    let source : Source := { Source.ofBytes (header.toBytes ++ ((Block.zeros 16).bytes ++ sealed)) with portion? := some 3 }
    let sink : Sink := ⟨#[], some 1, none⟩
    source.portion? ≠ some 0 ∧ source.sealedPayload [owner] = .ok (cipher, sealed) ∧
      (decrypt [owner] source sink).result = .ok () ∧ (decrypt [owner] source sink).output.bytes = [104, 105] := by
  intro key owner header cipher sealed source sink
  have portions : source.portion? ≠ some 0 := by simp [source]
  have right : header.hasMac key = true := decide_eq_true rfl
  obtain ⟨clean, payload⟩ := @Source.sealedPayload_of_file source header (.zeros 16) sealed rfl rfl rfl rfl [owner] key rfl right
  obtain ⟨inner, final?, releases, _, _, complete⟩ := (decrypt_releases [owner] source sink portions).2 cipher sealed payload
  rw [clean] at releases
  have short : sealed.length < Chunk.encryptedSize := by
    rw [cipher.length_encrypt]
    decide
  have opens := Cipher.decrypt_of_encrypt (key.payloadKey (.zeros 16)) (ChunkNonce.toBlock ⟨0, true⟩) [104, 105]
  obtain ⟨rfl, rfl⟩ := Chunk.eq_of_releases_short short opens releases
  obtain ⟨bytes, ok⟩ := complete rfl (by simp [sink])
  exact ⟨portions, payload, ok rfl, bytes⟩

end AgeCrypt
