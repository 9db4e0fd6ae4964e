import AgeCrypt.Decryption
import AgeCrypt.Proofs.HeaderBytes
import AgeCrypt.Proofs.Delivery

/-!
# Unlocking files

Identities are tried in their order, and the first one that does not give up decides (`LockedFile.tryFrom_eq_ok`,
`LockedFile.tryFrom_append`), whether it tries each stanza or unwraps them in some way of its own. A file is unlocked only
if the MAC that stands in it is the one over the part of it that was received before the MAC; if it is another one, nothing
else is tried (`LockedFile.unlock_received`).
-/

namespace AgeCrypt

open Buffered (newline)

namespace Identity

/-- The stanzas are tried one by one, as by every identity that says nothing else about it. -/
def TriesEach (identity : Identity) : Prop := ∀ stanzas, identity.unwrapAll stanzas = identity.unwrapFirst stanzas

theorem triesEach_mk (unwrap : Stanza → Option (Except DecryptError FileKey)) : TriesEach { unwrap } := fun _ => rfl

/-- An identity fails on some stanzas, but another one may be tried. -/
def GivesUp (identity : Identity) (stanzas : List Stanza) : Prop :=
  ∃ e, identity.unwrapAll stanzas = .error (.recovered e)

/-- All of some identities give up on some stanzas, for these reasons. -/
def GiveUpFor (identities : List Identity) (stanzas : List Stanza) (failures : List DecryptError) : Prop :=
  identities.map (unwrapAll · stanzas) = failures.map fun e => .error (.recovered e)

theorem unwrapFirst_of_none {identity : Identity} {stanzas : List Stanza} (none : ∀ s ∈ stanzas, identity.unwrap s = none) :
    identity.unwrapFirst stanzas = .error (.recovered .noMatch) := by
  rw [unwrapFirst, firstUnwrapped, List.findSome?_eq_none_iff.2 none]

/-- An identity that tries each stanza gives up only if none is for it. -/
theorem givesUp_iff {identity : Identity} (each : identity.TriesEach) {stanzas : List Stanza} :
    identity.GivesUp stanzas ↔ ∀ s ∈ stanzas, identity.unwrap s = none := by
  rw [GivesUp, each stanzas]
  constructor
  · rintro ⟨e, fails⟩
    unfold unwrapFirst firstUnwrapped at fails
    split at fails
    · cases fails
    · cases fails
    · rename_i none
      exact List.findSome?_eq_none_iff.1 none
  · exact fun none => ⟨.noMatch, unwrapFirst_of_none none⟩

theorem exists_giveUpFor {identities : List Identity} {stanzas : List Stanza} (all : ∀ i ∈ identities, i.GivesUp stanzas) :
    ∃ failures, GiveUpFor identities stanzas failures := by
  induction identities with
  | nil => exact ⟨[], rfl⟩
  | cons first identities ih =>
    obtain ⟨⟨e, gives⟩, all⟩ := List.forall_mem_cons.1 all
    obtain ⟨failures, others⟩ := ih all
    exact ⟨e :: failures, List.cons_eq_cons.2 ⟨gives, others⟩⟩

/-- The first stanza that is for an identity decides. -/
theorem unwrapFirst_of_first {identity : Identity} {earlier : List Stanza} {stanza : Stanza}
    {answer : Except DecryptError FileKey} (others : ∀ s ∈ earlier, identity.unwrap s = none)
    (answers : identity.unwrap stanza = some answer) (later : List Stanza) :
    identity.unwrapFirst (earlier ++ stanza :: later) = answer.mapError .fatal := by
  rw [unwrapFirst, firstUnwrapped, List.findSome?_append, List.findSome?_eq_none_iff.2 others, Option.none_or,
    List.findSome?_cons, answers]
  cases answer <;> rfl

theorem unwrapFirst_append {identity : Identity} {earlier later : List Stanza} {stanza : Stanza} {key : FileKey}
    (others : ∀ s ∈ earlier, identity.unwrap s = none) (opens : identity.unwrap stanza = some (.ok key)) :
    identity.unwrapFirst (earlier ++ stanza :: later) = .ok key :=
  unwrapFirst_of_first others opens later

end Identity

namespace LockedFile

/-- What is logged for identities that give up for these reasons, the first of which has this index. -/
def passedOver (index : Nat) (failures : List DecryptError) : List Event :=
  (failures.zipIdx index).map fun (e, i) => .identityPassedOver i e

/-- The file key is that of the first identity that does not give up. -/
theorem tryFrom_eq_ok {stanzas : List Stanza} {index : Nat} {failures : List DecryptError} {identities : List Identity}
    {key : FileKey} {events : List Event} (opens : tryFrom stanzas index failures identities = (.ok key, events)) :
    ∃ before identity after, identities = before ++ identity :: after ∧ (∀ i ∈ before, i.GivesUp stanzas) ∧
      identity.unwrapAll stanzas = .ok key := by
  fun_induction tryFrom stanzas index failures identities generalizing events with
  | case1 => cases opens
  | case2 index failures identity identities key' unwraps =>
    cases opens
    exact ⟨[], identity, identities, rfl, List.forall_mem_nil _, unwraps⟩
  | case3 => cases opens
  | case4 index failures identity identities e unwraps result events' step ih =>
    cases opens
    obtain ⟨before, found, after, rfl, give, opens⟩ := ih step
    exact ⟨identity :: before, found, after, rfl, List.forall_mem_cons.2 ⟨⟨e, unwraps⟩, give⟩, opens⟩

/-- Identities that give up are tried one after the other, and then the others are. -/
theorem tryFrom_of_giveUpFor {stanzas : List Stanza} {before : List Identity} {reasons : List DecryptError}
    (give : Identity.GiveUpFor before stanzas reasons) (index : Nat) (failures : List DecryptError) (rest : List Identity) :
    tryFrom stanzas index failures (before ++ rest) =
      ((tryFrom stanzas (index + before.length) (failures ++ reasons) rest).1,
        passedOver index reasons ++ (tryFrom stanzas (index + before.length) (failures ++ reasons) rest).2) := by
  induction before generalizing index failures reasons with
  | nil =>
    obtain rfl := List.map_eq_nil_iff.1 give.symm
    rw [List.nil_append, List.length_nil, List.append_nil]
    rfl
  | cons first before ih =>
    obtain ⟨e, reasons, rfl, fails, give⟩ := List.map_eq_cons_iff.1 give.symm
    rw [List.cons_append, tryFrom, show first.unwrapAll stanzas = _ from fails.symm]
    dsimp only
    rw [ih give.symm, List.length_cons, Nat.add_right_comm, Nat.add_assoc, List.append_assoc]
    rfl

/-- Behind identities that give up, the next one decides. -/
theorem tryFrom_append {stanzas : List Stanza} {before : List Identity} {reasons : List DecryptError} {identity : Identity}
    {key : FileKey} (give : Identity.GiveUpFor before stanzas reasons) (opens : identity.unwrapAll stanzas = .ok key)
    (index : Nat) (failures : List DecryptError) (after : List Identity) :
    tryFrom stanzas index failures (before ++ identity :: after) =
      (.ok key, passedOver index reasons ++ [.identityMatched (index + before.length)]) := by
  rw [tryFrom_of_giveUpFor give, tryFrom, opens]

/-- A file is unlocked with the key of that identity if its MAC is right. -/
theorem unlock_append {ρ : Type} [Reader ρ] {locked : LockedFile ρ} {before : List Identity} {reasons : List DecryptError}
    {identity : Identity} {key : FileKey} (give : Identity.GiveUpFor before locked.header.recipients reasons)
    (opens : identity.unwrapAll locked.header.recipients = .ok key) (right : locked.header.hasMac key = true)
    (after : List Identity) : locked.unlock (before ++ identity :: after) =
      (.ok (.start (.chaCha20Poly1305 (key.payloadKey locked.nonce)) locked.input),
        passedOver 0 reasons ++ [.identityMatched before.length]) := by
  have found := tryFrom_append give opens 0 [] after
  rw [Nat.zero_add] at found
  simp only [unlock, findKey, found, unlockWith, if_pos right]

section
variable {ρ : Type} [Reader ρ] {stop? : Option ChannelError} {input : Buffered ρ} {bs : Bytes}

/-- A file that was read up to its payload begins with its header and nonce, and passphrases stand alone in it. -/
theorem ofBuffered_of_holds (holds : input.Holds stop? bs) {locked : LockedFile (Buffered ρ)}
    (reads : ofBuffered input = .ok locked) :
    locked.header.isWritable = true ∧ locked.header.passphraseAlone = true ∧
      ∃ rest, bs = locked.header.toBytes ++ locked.nonce.bytes ++ rest ∧ Reader.Delivers stop? locked.input rest := by
  unfold ofBuffered at reads
  split at reads
  · cases reads
  · rename_i header input' parsed
    obtain ⟨writable, body, rfl, left⟩ := Header.read_of_holds holds parsed
    have delivers := Buffered.delivers_of_holds left
    unfold ofHeader at reads
    split at reads
    · cases reads
    rename_i alone
    by_cases enough : 16 ≤ body.length
    · obtain ⟨input'', step, rest⟩ := Reader.readExactly_of_delivers delivers enough
      rw [step] at reads
      cases reads
      refine ⟨writable, by simpa using alone, body.drop 16, ?_, rest⟩
      rw [List.append_assoc, List.take_append_drop]
    · obtain ⟨input'', step⟩ := Reader.readExactly_of_short delivers (Nat.not_le.1 enough)
      rw [step] at reads
      cases reads

/-- A file is read up to its payload if it begins with a header, in which passphrases stand alone, and a nonce. -/
theorem ofBuffered_toBytes {header : Header} (writable : header.isWritable = true) (alone : header.passphraseAlone = true)
    (nonce : PayloadNonce) {rest : Bytes} (holds : input.Holds stop? (header.toBytes ++ (nonce.bytes ++ rest))) :
    ∃ input', ofBuffered input = .ok ⟨header, nonce, input'⟩ ∧ Reader.Delivers stop? input' rest := by
  obtain ⟨r, parsed, left⟩ := Header.read_toBytes writable holds
  have enough : 16 ≤ (nonce.bytes ++ rest).length := by
    rw [List.length_append, nonce.length_bytes]
    omega
  obtain ⟨input', step, delivers⟩ := Reader.readExactly_of_delivers (Buffered.delivers_of_holds left) enough
  rw [List.drop_left' nonce.length_bytes] at delivers
  refine ⟨input', ?_, delivers⟩
  simp only [ofBuffered, parsed, ofHeader, alone, step]
  simp [List.take_left' nonce.length_bytes]

/-- The text of a MAC in front of a newline is determined by the bytes. -/
theorem mac_of_line {mac other : Block 32} {body rest : Bytes}
    (same : utf8 (Base64.encodeText mac.bytes) ++ newline :: body = utf8 (Base64.encodeText other.bytes) ++ newline :: rest) :
    mac = other ∧ body = rest := by
  have inside : ∀ block : Block 32, newline ∉ utf8 (Base64.encodeText block.bytes) := by
    intro block
    refine Header.newline_not_mem ?_
    rw [Base64.toList_encodeText]
    exact Base64.isPrintable_encode _
  have lines := congrArg Buffered.throughNewline same
  rw [Buffered.throughNewline_of_line _ (inside mac), Buffered.throughNewline_of_line _ (inside other)] at lines
  have texts := List.append_cancel_right lines
  rw [texts] at same
  have decoded := congrArg (fun bs => (ofUtf8? bs).bind fun s => Base64.decode s.toList) texts
  simp only [ofUtf8?_utf8, Option.bind_some, Base64.decode_encodeText, Option.some.injEq] at decoded
  refine ⟨?_, (List.cons.inj (List.append_cancel_left same)).2⟩
  cases mac
  cases other
  cases decoded
  rfl

/-- The MAC over the signed part of a file under a file key. -/
def macOfReceived (key : FileKey) (bs : Bytes) : Block 32 :=
  hmac (hkdf [] (utf8 "header") key.bytes).bytes (Header.signedPart bs)

theorem macOfReceived_toBytes {h : Header} (writable : h.isWritable = true) (key : FileKey) (rest : Bytes) :
    macOfReceived key (h.toBytes ++ rest) = Header.macOf key h.recipients := by
  rw [macOfReceived, Header.signedPart_toBytes writable]
  rfl

omit [Reader ρ] in
/-- A file is unlocked with the key of an identity, and its MAC is right under that key. -/
theorem unlock_eq_ok {locked : LockedFile ρ} {identities : List Identity} {plaintext : PayloadReader ρ}
    {events : List Event} (unlocks : locked.unlock identities = (.ok plaintext, events)) :
    ∃ key before identity after, identities = before ++ identity :: after ∧
      (∀ i ∈ before, i.GivesUp locked.header.recipients) ∧
      identity.unwrapAll locked.header.recipients = .ok key ∧ locked.header.hasMac key = true := by
  unfold unlock findKey at unlocks
  split at unlocks
  · cases unlocks
  · rename_i key events' found
    obtain ⟨before, identity, after, split, give, opens⟩ := tryFrom_eq_ok found
    by_cases right : locked.header.hasMac key = true
    · exact ⟨key, before, identity, after, split, give, opens, right⟩
    · rw [unlockWith, if_neg right] at unlocks
      cases unlocks

theorem eq_singleton_of_passphraseAlone {h : Header} (alone : h.passphraseAlone = true) {s : Stanza}
    (member : s ∈ h.recipients) (tag : s.tag = Header.passphraseTag) : h.recipients = [s] := by
  have some : h.hasPassphrase = true := List.any_eq_true.2 ⟨s, member, by simp [tag]⟩
  have single : h.recipients.length = 1 := by
    simpa [Header.passphraseAlone, some] using alone
  obtain ⟨t, only⟩ := List.length_eq_one_iff.1 single
  rw [only] at member
  rw [only, List.mem_singleton.1 member]

/-- No plaintext without a MAC over the bytes that were received. If a file is unlocked, it begins with its signed
    part, a space, the MAC of just that part under the file key, and a nonce; the key is that of the first identity
    that does not give up, and a stanza for a passphrase stands alone. If another MAC stands there, this is the error
    as soon as an identity gives a key, whatever comes behind the identity. An identity that tries each stanza gives
    the key of the first one that is for it, whatever comes behind the stanza. -/
theorem unlock_received (holds : input.Holds stop? bs) :
    (∀ locked identities plaintext events, ofBuffered input = .ok locked →
      locked.unlock identities = (.ok plaintext, events) →
      ∃ mac rest key before identity after,
        bs = Header.signedPart bs ++ utf8 " " ++ utf8 mac ++ [newline] ++ locked.nonce.bytes ++ rest ∧
        Base64.decode mac.toList = some (macOfReceived key bs).bytes ∧
        identities = before ++ identity :: after ∧
        (∀ i ∈ before, i.GivesUp locked.header.recipients) ∧
        identity.unwrapAll locked.header.recipients = .ok key ∧
        (∀ s ∈ locked.header.recipients, s.tag = Header.passphraseTag → locked.header.recipients = [s]) ∧
        ∃ body, bs = locked.header.toBytes ++ body) ∧
    (∀ header input' mac body other before identity after key,
      Header.read input = (.ok header, input') → header.passphraseAlone = true →
      bs = Header.signedPart bs ++ utf8 " " ++ utf8 mac ++ [newline] ++ body → 16 ≤ body.length →
      Base64.decode mac.toList = some (Block.bytes other) → other ≠ macOfReceived key bs →
      (∀ i ∈ before, Identity.GivesUp i header.recipients) → Identity.unwrapAll identity header.recipients = .ok key →
      ∃ locked reasons, ofBuffered input = .ok locked ∧ Identity.GiveUpFor before header.recipients reasons ∧
        locked.unlock (before ++ identity :: after) =
          (.error .wrongMac, passedOver 0 reasons ++ [.identityMatched before.length])) ∧
    ∀ identity earlier stanza later key, Identity.TriesEach identity → (∀ s ∈ earlier, identity.unwrap s = none) →
      identity.unwrap stanza = some (.ok key) → identity.unwrapAll (earlier ++ stanza :: later) = .ok key := by
  refine ⟨?_, ?_, ?_⟩
  · intro locked identities plaintext events reads unlocks
    obtain ⟨writable, alone, rest, same, _⟩ := ofBuffered_of_holds holds reads
    obtain ⟨key, before, identity, after, split, give, opens, right⟩ := unlock_eq_ok unlocks
    have signed : Header.signedPart bs = Header.signedBytes locked.header.recipients := by
      rw [same, List.append_assoc, Header.signedPart_toBytes writable]
    have mac : macOfReceived key bs = locked.header.mac := by
      rw [same, List.append_assoc, macOfReceived_toBytes writable]
      exact of_decide_eq_true right
    refine ⟨Base64.encodeText locked.header.mac.bytes, rest, key, before, identity, after, ?_, ?_, split, give, opens,
      fun s member tag => eq_singleton_of_passphraseAlone alone member tag, locked.nonce.bytes ++ rest, ?_⟩
    · rw [signed, ← Header.toBytes_eq_signedBytes, ← same]
    · rw [Base64.decode_encodeText, mac]
    · rw [same, List.append_assoc]
  · intro header input' mac body other before identity after key parsed alone same enough decodes differ give opens
    obtain ⟨writable, rest, written, left⟩ := Header.read_of_holds holds parsed
    have signed : Header.signedPart bs = Header.signedBytes header.recipients := by
      rw [written, Header.signedPart_toBytes writable]
    -- The MAC that was parsed is the one that stands in the received bytes.
    obtain ⟨rfl, rfl⟩ : header.mac = other ∧ rest = body := by
      rw [Base64.eq_encodeText_of_decode decodes, signed, written, Header.toBytes_eq_signedBytes] at same
      simp only [List.append_assoc, List.singleton_append] at same
      exact mac_of_line (List.append_cancel_left (List.append_cancel_left same))
    obtain ⟨input'', step, _⟩ := Reader.readExactly_of_delivers (Buffered.delivers_of_holds left) enough
    have wrong : ¬ header.hasMac key = true := by
      intro right
      refine differ ?_
      rw [written, macOfReceived_toBytes writable]
      exact (of_decide_eq_true right).symm
    obtain ⟨reasons, give⟩ := Identity.exists_giveUpFor give
    refine ⟨⟨header, ⟨rest.take 16, List.length_take_of_le enough⟩, input''⟩, reasons, ?_, give, ?_⟩
    · simp only [ofBuffered, parsed, ofHeader, alone, step]
      rfl
    · have found := tryFrom_append give opens 0 [] after
      rw [Nat.zero_add] at found
      simp only [unlock, findKey, found, unlockWith, if_neg wrong]
  · intro identity earlier stanza later key each others opens
    rw [each]
    exact Identity.unwrapFirst_append others opens

/-- A file with the right MAC is unlocked, and one with another MAC is not. -/
theorem unlock_received_sample :
    let key : FileKey := .zeros 16
    let recipients : List Stanza := [⟨"tag", ["argument"], [7]⟩]
    let stranger : Identity := { unwrap := fun _ => none }
    let owner : Identity := { unwrap := fun _ => some (.ok key) }
    let file (mac : Block 32) : Bytes := Header.toBytes ⟨recipients, mac⟩ ++ ((Block.zeros 16).bytes ++ [])
    (∃ mac rest found, file (Header.macOf key recipients) = Header.signedPart (file (Header.macOf key recipients)) ++
      utf8 " " ++ utf8 mac ++ [newline] ++ (Block.zeros 16).bytes ++ rest ∧
      Base64.decode mac.toList = some (macOfReceived found (file (Header.macOf key recipients))).bytes) ∧
    (∃ other locked, other ≠ macOfReceived key (file other) ∧
      ofBuffered (Buffered.ofReader (Source.ofBytes (file other))) = .ok locked ∧
      locked.unlock [stranger, owner] =
        (.error .wrongMac, [.identityPassedOver 0 .noMatch, .identityMatched 1])) := by
  intro key recipients stranger owner file
  have alone : ∀ mac, Header.passphraseAlone ⟨recipients, mac⟩ = true := fun mac => rfl
  have writable : ∀ mac, Header.isWritable ⟨recipients, mac⟩ = true := fun mac => rfl
  have holds : ∀ mac, (Buffered.ofReader (Source.ofBytes (file mac))).Holds none (file mac) :=
    fun mac => Buffered.holds_ofReader (Source.delivers_ofBytes _)
  have give : Identity.GiveUpFor [stranger] recipients [.noMatch] := rfl
  have signed : ∀ mac, Header.signedPart (file mac) = Header.signedBytes recipients :=
    fun mac => Header.signedPart_toBytes (writable mac) _
  constructor
  · have right : Header.hasMac ⟨recipients, Header.macOf key recipients⟩ key = true := decide_eq_true rfl
    obtain ⟨input, reads, _⟩ := ofBuffered_toBytes (writable (Header.macOf key recipients)) (alone _) (.zeros 16) (holds _)
    have unlocks := @unlock_append _ _ ⟨⟨recipients, Header.macOf key recipients⟩, .zeros 16, input⟩ _ _ _ _ give
      (rfl : owner.unwrapAll recipients = .ok key) right []
    obtain ⟨mac, rest, found, _, _, _, same, decodes, _⟩ := (unlock_received (holds _)).1 _ _ _ _ reads unlocks
    exact ⟨mac, rest, found, same, decodes⟩
  · obtain ⟨other, differ⟩ : ∃ other : Block 32, other ≠ Header.macOf key recipients := by
      by_cases zero : Block.zeros 32 = Header.macOf key recipients
      · exact ⟨⟨List.replicate 32 1, rfl⟩, by rw [← zero]; decide⟩
      · exact ⟨_, zero⟩
    have received : other ≠ macOfReceived key (file other) := by
      rw [macOfReceived, signed]
      exact differ
    obtain ⟨input, parsed, _⟩ := Header.read_toBytes (writable other) (holds other)
    have same : file other = Header.signedPart (file other) ++ utf8 " " ++ utf8 (Base64.encodeText other.bytes) ++ [newline] ++
        ((Block.zeros 16).bytes ++ []) := by
      rw [signed, ← Header.toBytes_eq_signedBytes ⟨recipients, other⟩]
    obtain ⟨_, refuses, each⟩ := unlock_received (holds other)
    have opens : owner.unwrapAll recipients = .ok key :=
      each owner [] _ [] key (Identity.triesEach_mk _) (List.forall_mem_nil _) rfl
    have gives : ∀ i ∈ [stranger], i.GivesUp recipients := List.forall_mem_singleton.2 ⟨.noMatch, rfl⟩
    obtain ⟨locked, reasons, reads, reported, wrong⟩ := refuses _ _ _ _ other [stranger] owner [] key parsed (alone other)
      same (by decide) (Base64.decode_encodeText _) received gives opens
    obtain rfl : reasons = [.noMatch] := (List.map_inj_right fun e e' same => by cases same; rfl).1 reported.symm
    exact ⟨other, locked, received, reads, wrong⟩

end

end LockedFile

end AgeCrypt
