import AgeCrypt.Proofs.LabelAgreement
import AgeCrypt.Proofs.Rereading

/-!
# What randomness is used for

The bytes that an encryption draws are laid out by its recipients alone: a file key, then for each recipient in turn an
ephemeral secret, a salt or nothing, and a nonce. A computation that draws a number of bytes in this sense depends on these
bytes and no others (`Draws`), and what is prepared for a file is a function of them (`Member.prepared`).

Main statement: `Member.randomness_used`.
-/

namespace AgeCrypt

namespace Randomness
variable {m n : Nat} {r r' : Randomness}

/-- The randomness behind some bytes. -/
def skip (r : Randomness) (n : Nat) : Randomness := { r with used := r.used + n }

/-- Bytes behind others that are still to be drawn. -/
def segment (r : Randomness) (start n : Nat) : Block n := (r.skip start).peek n

/-- The next bytes of both streams are the same ones. -/
def Agree (n : Nat) (r r' : Randomness) : Prop := ∀ i < n, r.byteAt (r.used + i) = r'.byteAt (r'.used + i)

theorem skip_skip (r : Randomness) (m n : Nat) : (r.skip m).skip n = r.skip (m + n) := by
  rw [skip, skip, skip, Nat.add_assoc]

theorem Agree.refl (n : Nat) (r : Randomness) : Agree n r r := fun _ _ => rfl

theorem Agree.mono (agree : Agree n r r') (le : m ≤ n) : Agree m r r' :=
  fun i lt => agree i (Nat.lt_of_lt_of_le lt le)

theorem Agree.skip (agree : Agree (m + n) r r') : Agree n (r.skip m) (r'.skip m) := by
  intro i lt
  have same := agree (m + i) (by omega)
  rwa [← Nat.add_assoc, ← Nat.add_assoc] at same

theorem Agree.peek (agree : Agree n r r') : r.peek n = r'.peek n := by
  rw [Randomness.peek, Randomness.peek, Block.mk.injEq]
  exact List.map_congr_left fun i member => agree i (List.mem_range.1 member)

/-- Bytes that are drawn at once: where they begin behind those that were used before, and how many they are. -/
structure Segment where
  start : Nat
  length : Nat

/-- Each segment begins where the one before it ends. -/
inductive Consecutive : Nat → List Segment → Nat → Prop
  | nil (n : Nat) : Consecutive n [] n
  | cons (start length : Nat) {rest : List Segment} {stop : Nat} (next : Consecutive (start + length) rest stop) :
    Consecutive start (⟨start, length⟩ :: rest) stop

end Randomness

/-- A computation draws just `n` bytes if it succeeds, and no more if it fails. It depends on no other bytes. -/
def Draws {α : Type} (x : Encrypting α) (n : Nat) : Prop :=
  ∀ r, ∃ result k, k ≤ n ∧ (∀ a, result = .ok a → k = n) ∧
    ∀ r', Randomness.Agree n r r' → x.run r' = (result, r'.skip k)

namespace Draws
variable {α β : Type} {m n : Nat}

theorem of_run {x : Encrypting α} (g : Block n → Except EncryptError α) (runs : ∀ r, x.run r = (g (r.peek n), r.skip n)) :
    Draws x n := by
  intro r
  refine ⟨g (r.peek n), n, Nat.le_refl n, fun _ _ => rfl, fun r' agree => ?_⟩
  rw [runs, agree.peek]

theorem draw (n : Nat) : Draws (Randomness.draw n : Encrypting (Block n)) n := of_run .ok fun _ => rfl

theorem pure (a : α) : Draws (Pure.pure a) 0 := of_run (fun _ => .ok a) fun _ => rfl

theorem throw (e : EncryptError) (n : Nat) : Draws (MonadExcept.throw e : Encrypting α) n := by
  intro r
  refine ⟨.error e, 0, Nat.zero_le n, fun _ ok => ?_, fun _ _ => rfl⟩
  cases ok

theorem bind {x : Encrypting α} {f : α → Encrypting β} (first : Draws x m) (second : ∀ a, Draws (f a) n) :
    Draws (x >>= f) (m + n) := by
  intro r
  obtain ⟨result, k, le, whole, runs⟩ := first r
  cases result with
  | error e =>
    -- The second computation is not run, so that fewer bytes may be drawn.
    refine ⟨.error e, k, Nat.le_add_right_of_le le, fun _ ok => ?_, fun r' agree => ?_⟩
    · cases ok
    · exact Encrypting.run_bind_of_error (runs r' (agree.mono (Nat.le_add_right m n)))
  | ok a =>
    obtain rfl := whole a rfl
    obtain ⟨result, k', le, whole', runs'⟩ := second a (r.skip k)
    refine ⟨result, k + k', Nat.add_le_add_left le k, fun b ok => ?_, fun r' agree => ?_⟩
    · rw [whole' b ok]
    · rw [Encrypting.run_bind_of_ok (runs r' (agree.mono (Nat.le_add_right k n))), runs' _ agree.skip, Randomness.skip_skip]

end Draws

/-- What an encryption gives, apart from the randomness that it leaves. -/
def Encrypted.outcome {ω : Type} (encrypted : Encrypted ω) : Except EncryptError Unit × ω × List Event :=
  (encrypted.result, encrypted.output, encrypted.events)

/-- A recipient of one of the library's two kinds, or one that a caller defines without randomness. -/
inductive Member
  | x25519 (key : X25519.PublicKey)
  | passphrase (text : String) (workFactor : WorkFactor)
  | custom (wrap : FileKey → Except EncryptError (List Stanza × LabelSet)) (isPassphrase : Bool)

namespace Member
open Randomness (Segment Consecutive)

def recipient : Member → Recipient
  | x25519 key => X25519.recipient key
  | passphrase text workFactor => Passphrase.recipient text workFactor
  | custom wrap isPassphrase => ⟨fun key => ExceptT.mk (pure (wrap key)), isPassphrase⟩

/-- How many bytes a recipient draws: an ephemeral secret, a salt or nothing. -/
def draws : Member → Nat
  | x25519 _ => 32
  | passphrase _ _ => 16
  | custom _ _ => 0

/-- What a recipient makes of a file key with the bytes that it draws. -/
def wrapWith (key : FileKey) : (member : Member) → Block member.draws → Except EncryptError (List Stanza × LabelSet)
  | x25519 recipient, drawn => .ok ([X25519.wrapWith ⟨drawn⟩ recipient key], .empty)
  | passphrase text workFactor, drawn => .ok ([Passphrase.wrapWith drawn text workFactor key], .empty)
  | custom wrap _, _ => wrap key

theorem run_wrap (member : Member) (key : FileKey) (r : Randomness) :
    (member.recipient.wrap key).run r = (member.wrapWith key (r.peek member.draws), r.skip member.draws) := by
  cases member <;> rfl

theorem draws_wrap (member : Member) (key : FileKey) : Draws (member.recipient.wrap key) member.draws :=
  .of_run (member.wrapWith key) (member.run_wrap key)

/-- How many bytes recipients draw. -/
def drawn : List Member → Nat
  | [] => 0
  | member :: members => member.draws + drawn members

theorem draws_wrapEach (members : List Member) (key : FileKey) (labels? : Option LabelSet) :
    Draws (Audience.wrapEach key labels? (members.map recipient)) (drawn members) := by
  induction members generalizing labels? with
  | nil => exact .pure []
  | cons member members ih =>
    rw [List.map_cons, Audience.wrapEach, drawn]
    refine (member.draws_wrap key).bind fun wrapped => ?_
    obtain ⟨stanzas, labels⟩ := wrapped
    dsimp only
    split
    · exact .throw _ _
    · split
      · exact .throw _ _
      · exact (ih _).bind fun rest => .pure _

/-- What an encryption draws altogether. -/
def total (members : List Member) : Nat := 16 + (drawn members + 16)

theorem draws_prologue {members : List Member} {audience : Audience}
    (allowed : Audience.ofRecipients (members.map recipient) = .ok audience) : Draws audience.prologue (total members) := by
  have same := Audience.recipients_of_ofRecipients allowed
  rw [Audience.prologue]
  refine (Draws.draw 16).bind fun key => ?_
  rw [Audience.wrap, same]
  exact (draws_wrapEach members key none).bind fun stanzas => (Draws.draw 16).bind fun nonce => .pure _

/-- What the recipients draw, one after the other. -/
def segmentsFrom (start : Nat) : List Member → List Segment
  | [] => []
  | member :: members => ⟨start, member.draws⟩ :: segmentsFrom (start + member.draws) members

/-- A file key, what the recipients draw and a nonce. -/
def segments (members : List Member) : List Segment :=
  ⟨0, 16⟩ :: segmentsFrom 16 members ++ [⟨16 + drawn members, 16⟩]

theorem consecutive_segmentsFrom (start : Nat) (members : List Member) {rest : List Segment} {stop : Nat}
    (next : Consecutive (start + drawn members) rest stop) : Consecutive start (segmentsFrom start members ++ rest) stop := by
  induction members generalizing start with
  | nil => exact next
  | cons member members ih =>
    rw [drawn, ← Nat.add_assoc] at next
    exact .cons start member.draws (ih (start + member.draws) next)

theorem consecutive_segments (members : List Member) : Consecutive 0 (segments members) (total members) := by
  refine .cons 0 16 (consecutive_segmentsFrom 16 members (.cons _ 16 ?_))
  rw [total, Nat.add_assoc]
  exact .nil _

/-- The stanzas of recipients, each made with its own segment. -/
def stanzasFrom (key : FileKey) (r : Randomness) (start : Nat) : List Member → List Stanza
  | [] => []
  | member :: members =>
    ((member.wrapWith key (r.segment start member.draws)).toOption.map Prod.fst).getD [] ++
      stanzasFrom key r (start + member.draws) members

/-- What is prepared for a file from the segments of the randomness. -/
def prepared (members : List Member) (r : Randomness) : Prologue :=
  let key : FileKey := r.segment 0 16
  let nonce : PayloadNonce := r.segment (16 + drawn members) 16
  ⟨.sign key (stanzasFrom key r 16 members), nonce, key.payloadKey nonce⟩

theorem wrapEach_eq_stanzasFrom {members : List Member} {key : FileKey} {labels? : Option LabelSet} {r later : Randomness}
    {start : Nat} {stanzas : List Stanza}
    (wraps : (Audience.wrapEach key labels? (members.map recipient)).run (r.skip start) = (.ok stanzas, later)) :
    stanzas = stanzasFrom key r start members ∧ later = r.skip (start + drawn members) := by
  induction members generalizing labels? start stanzas with
  | nil =>
    cases wraps
    exact ⟨rfl, rfl⟩
  | cons member members ih =>
    obtain ⟨own, labels, middle, first, rest, step, others, rfl⟩ := Audience.wrapEach_cons wraps
    rw [run_wrap, Randomness.skip_skip, Prod.mk.injEq] at step
    obtain ⟨made, rfl⟩ := step
    obtain ⟨rfl, behind⟩ := ih others
    rw [stanzasFrom, drawn, ← Nat.add_assoc]
    refine ⟨?_, behind⟩
    rw [Randomness.segment, made]
    rfl

/-- A prologue that is drawn is the one that is made of the segments. -/
theorem run_prologue {members : List Member} {audience : Audience}
    (allowed : Audience.ofRecipients (members.map recipient) = .ok audience) {r later : Randomness} {p : Prologue}
    (draws : audience.prologue.run r = (.ok p, later)) : p = prepared members r ∧ later = r.skip (total members) := by
  have same := Audience.recipients_of_ofRecipients allowed
  obtain ⟨key, _, drawn, draws⟩ := Encrypting.bind_eq_ok draws
  cases drawn
  obtain ⟨stanzas, later', wraps, draws⟩ := Encrypting.bind_eq_ok draws
  rw [Audience.wrap, same] at wraps
  obtain ⟨rfl, rfl⟩ := @wrapEach_eq_stanzasFrom _ _ _ r _ 16 _ wraps
  cases draws
  exact ⟨rfl, by rw [total, ← Nat.add_assoc]; rfl⟩

/-- Nobody is to read the file, or a passphrase is mixed with other recipients. -/
def IsRefused (members : List Member) : Prop :=
  members = [] ∨ 2 ≤ members.length ∧ ∃ member ∈ members, member.recipient.isPassphrase = true

theorem ofRecipients_of_isRefused {members : List Member} (refused : IsRefused members) :
    ∃ e, Audience.ofRecipients (members.map recipient) = .error e := by
  rcases refused with rfl | ⟨many, member, inside, uses⟩
  · exact ⟨.noRecipients, rfl⟩
  · have some : members.map recipient ≠ [] := by
      rw [Ne, List.map_eq_nil_iff]
      rintro rfl
      cases inside
    have mixed : ¬ ((members.map recipient).length = 1 ∨ (members.map recipient).all (fun r => !r.isPassphrase)) := by
      rintro (single | plain)
      · rw [List.length_map] at single
        omega
      · have other := List.all_eq_true.1 plain _ (List.mem_map_of_mem inside)
        simp [uses] at other
    exact ⟨.passphraseNotAlone, by rw [Audience.ofRecipients, dif_neg some, dif_neg mixed]⟩

section
variable {ρ ω : Type} [Reader ρ] [Writer ω] {members : List Member} {input : ρ} {output : ω} {format : Format}
  {r r' : Randomness}

theorem prologue_of_agree {audience : Audience} (allowed : Audience.ofRecipients (members.map recipient) = .ok audience)
    (agree : Randomness.Agree (total members) r r') : (audience.prologue.run r').1 = (audience.prologue.run r).1 := by
  obtain ⟨result, k, _, _, runs⟩ := draws_prologue allowed r
  rw [runs r (.refl _ r), runs r' agree]

theorem encrypt_of_agree (agree : Randomness.Agree (total members) r r') :
    (encrypt (members.map recipient) input output format r').outcome =
      (encrypt (members.map recipient) input output format r).outcome := by
  unfold encrypt
  cases allowed : Audience.ofRecipients (members.map recipient) with
  | error e => rfl
  | ok audience =>
    obtain ⟨result, k, _, _, runs⟩ := draws_prologue allowed r
    rcases ArmorWriter.start output format with ⟨_ | _, w⟩
    · rfl
    · dsimp only
      rw [runs r (.refl _ r), runs r' agree]
      cases result <;> rfl

theorem encryptInMemory_of_agree (agree : Randomness.Agree (total members) r r') :
    (encryptInMemory (members.map recipient) input r').1 = (encryptInMemory (members.map recipient) input r).1 ∧
      (encryptInMemory (members.map recipient) input r').2.2 = (encryptInMemory (members.map recipient) input r).2.2 := by
  unfold encryptInMemory
  cases allowed : Audience.ofRecipients (members.map recipient) with
  | error e => exact ⟨rfl, rfl⟩
  | ok audience =>
    obtain ⟨result, k, _, _, runs⟩ := draws_prologue allowed r
    dsimp only
    rw [runs r (.refl _ r), runs r' agree]
    cases result with
    | error e => exact ⟨rfl, rfl⟩
    | ok p =>
      dsimp only
      generalize (writePayload input _ : Except ChannelError Unit × Sink) = written
      obtain ⟨_ | _, body⟩ := written
      · exact ⟨rfl, rfl⟩
      · exact ⟨rfl, rfl⟩

theorem encrypt_of_ok (ok : (encrypt (members.map recipient) input output format r).result = .ok ()) :
    Prepares (members.map recipient) r (prepared members r) ∧
      (encrypt (members.map recipient) input output format r).randomness = r.skip (total members) := by
  unfold encrypt at ok ⊢
  split at ok
  · cases ok
  rename_i audience allowed
  split at ok
  · cases ok
  split at ok
  · cases ok
  rename_i p later draws
  obtain ⟨rfl, rfl⟩ := run_prologue allowed draws
  exact ⟨⟨audience, _, allowed, draws⟩, rfl⟩

theorem encryptInMemory_of_ok {f : File} {later : Randomness} {events : List Event}
    (ok : encryptInMemory (members.map recipient) input r = (.ok f, later, events)) :
    Prepares (members.map recipient) r (prepared members r) ∧ later = r.skip (total members) := by
  unfold encryptInMemory at ok
  split at ok
  · cases ok
  rename_i audience allowed
  split at ok
  · cases ok
  rename_i p middle draws
  obtain ⟨rfl, rfl⟩ := run_prologue allowed draws
  refine ⟨⟨audience, _, allowed, draws⟩, ?_⟩
  dsimp only at ok
  split at ok
  · cases ok
  · cases ok
    rfl

/-- How the ways to encrypt an input to recipients use some randomness. -/
structure UsesSegments (members : List Member) (recorded : ω → Bytes → Prop) (before : Bytes) (input : ρ) (output : ω)
    (plaintext : Bytes) (r : Randomness) : Prop where
  /-- A file that is begun has what is prepared from the segments, however its payload is written. -/
  begun : ∀ audience p later, Audience.ofRecipients (members.map recipient) = .ok audience →
    audience.prologue.run r = (.ok p, later) → p = prepared members r ∧ later = r.skip (total members)
  written : ∀ format, (encrypt (members.map recipient) input output format r).result = .ok () →
    recorded (encrypt (members.map recipient) input output format r).output
        (before ++ format.encode ((prepared members r).file plaintext)) ∧
      (encrypt (members.map recipient) input output format r).randomness = r.skip (total members)
  inMemory : ∀ f later events, encryptInMemory (members.map recipient) input r = (.ok f, later, events) →
    f = (prepared members r).inMemory plaintext ∧ later = r.skip (total members)
  /-- Other bytes of the randomness change nothing, whether the encryption succeeds or not. -/
  alike : ∀ r', Randomness.Agree (total members) r r' →
    (∀ audience, Audience.ofRecipients (members.map recipient) = .ok audience →
      (audience.prologue.run r').1 = (audience.prologue.run r).1) ∧
    (∀ format, (encrypt (members.map recipient) input output format r').outcome =
      (encrypt (members.map recipient) input output format r).outcome) ∧
    (encryptInMemory (members.map recipient) input r').1 = (encryptInMemory (members.map recipient) input r).1 ∧
    (encryptInMemory (members.map recipient) input r').2.2 = (encryptInMemory (members.map recipient) input r).2.2
  refused : IsRefused members → ∃ e, Audience.ofRecipients (members.map recipient) = .error e ∧
    (∀ format, encrypt (members.map recipient) input output format r = ⟨.error e, output, r, []⟩) ∧
    encryptInMemory (members.map recipient) input r = (.error e, r, [])

theorem usesSegments_of_records {room : Bytes → Prop} {recorded : ω → Bytes → Prop} {before plaintext : Bytes}
    {stop? : Option ChannelError} (delivers : Reader.Delivers stop? input plaintext) (records : Writer.Records room recorded)
    (holds : recorded output before) (members : List Member) (r : Randomness) :
    UsesSegments members recorded before input output plaintext r where
  begun _ _ _ allowed draws := run_prologue allowed draws
  written format ok := by
    obtain ⟨prepares, left⟩ := encrypt_of_ok ok
    exact ⟨((encrypt_of_records delivers records holds prepares format).1 ok).2.2, left⟩
  inMemory f later events ok := by
    obtain ⟨prepares, left⟩ := encryptInMemory_of_ok ok
    exact ⟨(encryptInMemory_of_prepares delivers prepares).1 f later events ok, left⟩
  alike _ agree :=
    ⟨fun _ allowed => prologue_of_agree allowed agree, fun _ => encrypt_of_agree agree, encryptInMemory_of_agree agree⟩
  refused refused := by
    obtain ⟨e, none⟩ := ofRecipients_of_isRefused refused
    refine ⟨e, none, fun format => ?_, ?_⟩
    · rw [encrypt, none]
    · rw [encryptInMemory, none]

/-- Each byte of the randomness has one use in an encryption, whichever way it is done. Those that are used follow one another
    in segments: a file key, for each recipient in turn an ephemeral secret, a salt or nothing, and a nonce. An encryption that
    succeeds draws just these and is determined by them, and one that is refused draws and writes nothing. This holds as well
    when bytes are encrypted to one recipient. -/
theorem randomness_used {room : Bytes → Prop} {recorded : ω → Bytes → Prop} {before plaintext : Bytes}
    {stop? : Option ChannelError} (delivers : Reader.Delivers stop? input plaintext) (records : Writer.Records room recorded)
    (holds : recorded output before) (members : List Member) (r : Randomness) :
    Consecutive 0 (segments members) (total members) ∧
      UsesSegments members recorded before input output plaintext r ∧
      ∀ member plaintext format,
        ((encryptBytes (recipient member) plaintext format r).result = .ok () →
          (encryptBytes (recipient member) plaintext format r).output.bytes =
              format.encode ((prepared [member] r).file plaintext) ∧
            (encryptBytes (recipient member) plaintext format r).randomness = r.skip (total [member])) ∧
        ∀ r', Randomness.Agree (total [member]) r r' →
          (encryptBytes (recipient member) plaintext format r').outcome =
            (encryptBytes (recipient member) plaintext format r).outcome := by
  refine ⟨consecutive_segments members, usesSegments_of_records delivers records holds members r, ?_⟩
  intro member plaintext format
  have single := usesSegments_of_records (Source.delivers_ofBytes plaintext) Sink.unlimited.records
    Sink.unlimited.recorded_refl [member] r
  constructor
  · intro ok
    obtain ⟨⟨bytes, _⟩, left⟩ := single.written format ok
    exact ⟨bytes, left⟩
  · intro r' agree
    exact (single.alike r' agree).2.1 format

end

/-- Two recipients, one of whom draws nothing. Bytes behind the first 64 change nothing. -/
theorem randomness_used_hi :
    let members : List Member := [.x25519 ⟨Block.zeros 32⟩, .custom (fun _ => .ok ([⟨"tag", [], []⟩], .empty)) false]
    let stream (b : UInt8) : Randomness := ⟨fun i => if i < 64 then 7 else b, 0⟩
    let encrypted (b : UInt8) :=
      encrypt (members.map recipient) (Source.ofBytes [104, 105]) Sink.unlimited .armored (stream b)
    (encrypted 1).result = .ok () ∧ (encrypted 1).randomness.used = 64 ∧ (encrypted 2).output = (encrypted 1).output := by
  intro members stream encrypted
  have delivers := Source.delivers_ofBytes [104, 105]
  obtain ⟨_, used, _⟩ :=
    randomness_used delivers Sink.unlimited.records Sink.unlimited.recorded_refl members (stream 1)
  have ok : (encrypted 1).result = .ok () := by
    obtain ⟨p, prepares⟩ : ∃ p, Prepares (members.map recipient) (stream 1) p := ⟨_, _, _, rfl, rfl⟩
    refine (encrypt_of_records delivers Sink.unlimited.records Sink.unlimited.recorded_refl prepares .armored).2 rfl ?_
    exact ⟨by decide, Sink.room_unlimited #[]⟩
  have agree : Randomness.Agree (total members) (stream 1) (stream 2) := by
    intro i lt
    have first : 0 + i < 64 := by
      rw [Nat.zero_add]
      exact lt
    exact (if_pos first).trans (if_pos first).symm
  obtain ⟨_, left⟩ := used.written .armored ok
  obtain ⟨_, same, _⟩ := used.alike (stream 2) agree
  exact ⟨ok, congrArg Randomness.used left, congrArg (fun given => given.2.1) (same .armored)⟩

end Member

end AgeCrypt
