import AgeCrypt.Proofs.KeyAgreement

/-!
# Public keys of low order

Unwrapping refuses the shares of low order and no others (`X25519.unwrapWith_eq_lowOrderPoint_iff`), and what was wrapped
never has such a share. Wrapping has no such check: for a public key of low order the shared secret is that of zeros
whatever the ephemeral secret is, and everyone can unwrap the file key.

Main statement: `X25519.wrap_recipient`.
-/

namespace AgeCrypt

namespace X25519
open Curve25519

theorem not_contributory_of_lowOrder {key : PublicKey} (low : coordinateOf key.block ∈ lowOrder) (secret : SecretKey) :
    contributory (sharedSecret secret.block key.block) = false :=
  contributory_eq_false_iff.2 ((sharedSecret_eq_zeros_iff _ _).2 low)

theorem unwrapWith_eq_lowOrderPoint_iff {secret : SecretKey} {share : PublicKey} {body : Bytes} :
    unwrapWith secret share body = some (.error .lowOrderPoint) ↔
      body.length = wrappedLength ∧ coordinateOf share.block ∈ lowOrder := by
  by_cases size : body.length = wrappedLength
  · by_cases low : coordinateOf share.block ∈ lowOrder
    · refine iff_of_true ?_ ⟨size, low⟩
      rw [unwrapWith, if_neg (not_not_intro size)]
      dsimp only
      rw [not_contributory_of_lowOrder low secret]
      rfl
    · refine iff_of_false ?_ fun both => low both.2
      rw [unwrapWith, if_neg (not_not_intro size)]
      dsimp only
      rw [(contributory_iff secret.block share.block).2 low]
      cases unwrapUnder (wrappingKey share secret.toPublic (sharedSecret secret.block share.block)) body with
      | none =>
        intro same
        cases same
      | some fileKey =>
        intro same
        cases same
  · refine iff_of_false ?_ fun both => size both.1
    rw [unwrapWith, if_pos size]
    intro same
    cases same

/-- No identity takes what was wrapped, for itself or for others, for a stanza of low order. -/
theorem unwrap_wrapWith_ne_lowOrderPoint (secret ephemeral : SecretKey) (key : PublicKey) (fileKey : FileKey) :
    (identity secret).unwrap (wrapWith ephemeral key fileKey) ≠ some (.error .lowOrderPoint) := by
  show (shareOf? (wrapWith ephemeral key fileKey)).bind _ ≠ _
  rw [shareOf?_wrapWith, Option.bind_some, Ne, unwrapWith_eq_lowOrderPoint_iff]
  exact fun both => publicKey_not_lowOrder ephemeral.block both.2

/-- Without a secret: the shared secret is taken to be that of zeros. -/
def keyless (key : PublicKey) : Identity where
  unwrap stanza := (shareOf? stanza).bind fun share =>
    (unwrapUnder (wrappingKey share key (Block.zeros 32)) stanza.body).map .ok

theorem unwrap_keyless {ephemeral : SecretKey} {key : PublicKey}
    (none : contributory (sharedSecret ephemeral.block key.block) = false) (fileKey : FileKey) :
    (keyless key).unwrap (wrapWith ephemeral key fileKey) = some (.ok fileKey) := by
  simp only [keyless, shareOf?_wrapWith, Option.bind_some]
  rw [wrapWith, contributory_eq_false_iff.1 none, unwrapUnder_wrapUnder]
  rfl

/-- For every public key and with every ephemeral secret, wrapping gives a stanza. Its shared secret is not that of zeros
    exactly if the public key is not of low order. Otherwise the stanza can be unwrapped without any secret. -/
theorem wrap_recipient (key : PublicKey) (fileKey : FileKey) (randomness : Randomness) :
    let ephemeral : SecretKey := ⟨randomness.peek 32⟩
    let stanza := wrapWith ephemeral key fileKey
    let shared := sharedSecret ephemeral.block key.block
    ((recipient key).wrap fileKey).run randomness =
        (.ok ([stanza], .empty), { randomness with used := randomness.used + 32 }) ∧
      (contributory shared = true ↔ coordinateOf key.block ∉ lowOrder) ∧
      (coordinateOf key.block ∈ lowOrder → (keyless key).unwrap stanza = some (.ok fileKey)) := by
  intro ephemeral stanza shared
  exact ⟨rfl, contributory_iff _ _, fun low => unwrap_keyless (not_contributory_of_lowOrder low ephemeral) fileKey⟩

/-- A public key that stands for the coordinate one, though it is not the number one. -/
theorem wrap_recipient_one :
    let key : PublicKey := ⟨⟨littleEndian 32 (fieldOrder + 1), by simp⟩⟩
    let stanza := wrapWith ⟨Block.zeros 32⟩ key (Block.zeros 16)
    ((recipient key).wrap (Block.zeros 16)).run ⟨fun _ => 0, 0⟩ = (.ok ([stanza], .empty), ⟨fun _ => 0, 32⟩) ∧
      (keyless key).unwrap stanza = some (.ok (Block.zeros 16)) := by
  intro key stanza
  obtain ⟨wraps, _, opens⟩ := wrap_recipient key (Block.zeros 16) ⟨fun _ => 0, 0⟩
  exact ⟨wraps, opens (by decide +kernel)⟩

/-- The text of the public key of zeros is accepted, and a file key is wrapped for it under a shared secret of zeros. -/
theorem not_contributory_of_zeros :
    let key : PublicKey := ⟨Block.zeros 32⟩
    let randomness : Randomness := ⟨fun _ => 1, 0⟩
    let ephemeral : SecretKey := ⟨randomness.peek 32⟩
    PublicKey.parse "age1qqqqqqqqqqqqqqqqqqqqqqqqqqqqqqqqqqqqqqqqqqqqqqqqqqqq5cu47z" = .ok key ∧
      ((recipient key).wrap (Block.zeros 16)).run randomness =
        (.ok ([wrapWith ephemeral key (Block.zeros 16)], .empty), ⟨fun _ => 1, 32⟩) ∧
      contributory (sharedSecret ephemeral.block key.block) = false := by
  intro key randomness ephemeral
  refine ⟨?_, rfl, ?_⟩
  · decide +kernel
  · decide +kernel

/-- A header holds what each recipient of the file made of the file key. -/
theorem subset_wrapEach {recipient : Recipient} {recipients : List Recipient} (member : recipient ∈ recipients)
    {fileKey : FileKey} {labels? : Option LabelSet} {randomness later : Randomness} {stanzas : List Stanza}
    (wraps : (Audience.wrapEach fileKey labels? recipients).run randomness = (.ok stanzas, later)) :
    ∃ own labels before behind, (recipient.wrap fileKey).run before = (.ok (own, labels), behind) ∧
      ∀ s ∈ own, s ∈ stanzas := by
  induction recipients generalizing labels? randomness stanzas with
  | nil => cases member
  | cons first recipients ih =>
    obtain ⟨own, labels, middle, _, rest, step, others, rfl⟩ := Audience.wrapEach_cons wraps
    rcases List.mem_cons.1 member with rfl | member
    · exact ⟨own, labels, _, _, step, fun s => List.mem_append_left rest⟩
    · obtain ⟨own', labels', before, behind, step', part⟩ := ih member others
      exact ⟨own', labels', before, behind, step', fun s inside => List.mem_append_right own (part s inside)⟩

/-- Whoever else a file is for, a public key of low order among its recipients opens it to everyone. -/
theorem exists_unwrap_keyless {key : PublicKey} (low : coordinateOf key.block ∈ lowOrder) {recipients : List Recipient}
    (member : recipient key ∈ recipients) {randomness : Randomness} {p : Prologue}
    (prepares : Prepares recipients randomness p) :
    ∃ fileKey, (∃ s ∈ p.header.recipients, (keyless key).unwrap s = some (.ok fileKey)) ∧
      p.header.hasMac fileKey = true ∧ p.payloadKey = fileKey.payloadKey p.nonce := by
  obtain ⟨stanzas, later, wraps, header, derived⟩ := stanzas_of_prepares prepares
  obtain ⟨own, labels, before, behind, step, part⟩ := subset_wrapEach member wraps
  cases step
  have opens := unwrap_keyless (not_contributory_of_lowOrder low ⟨before.peek 32⟩) (randomness.peek 16)
  refine ⟨randomness.peek 16, ⟨_, ?_, opens⟩, ?_, derived⟩
  · rw [header]
    exact part _ List.mem_cons_self
  · rw [header]
    exact decide_eq_true rfl

end X25519

end AgeCrypt
